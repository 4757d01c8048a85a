import Stagewise.Proofs.Classification.Progress
import Stagewise.Proofs.Classification.Settling

namespace Stagewise

namespace Classifier

variable {c : Classifier} {s s' : State} {w : Work} {work stack : List Work} {t t' : Classification}
  {b q : BlockId} {x : Scope} {i : InstId} {info : ValueInfo} {stack' : List Work}

def Owed (t : Classification) (stack : List Work) (b : BlockId) (x : Scope) : Prop :=
  (t.forcedAt b).contains x = true ∨
    ∃ w ∈ stack, w.node = .block b ∧ w.force.contains x = true

/-- Scopes reach the branches that decide about a forced block, up to what some work still does. -/
structure Guarding (c : Classifier) (t : Classification) (stack : List Work) : Prop where
  parents : ∀ b x, (t.forcedAt b).contains x = true → ∀ q ∈ c.parents b,
    (t.guardsAt q).contains x = true ∧ Owed t stack q x
  guards : ∀ q x, (t.guardsAt q).contains x = true → Owed t stack q x

theorem Owed.mono (h : Owed t stack b x) (hs : ∀ w ∈ stack, w ∈ stack') : Owed t stack' b x := by
  rcases h with h | ⟨w, hw, h⟩
  · exact .inl h
  · exact .inr ⟨w, hs w hw, h⟩

theorem Guarding.mono (h : c.Guarding t stack) (hs : ∀ w ∈ stack, w ∈ stack') :
    c.Guarding t stack' :=
  ⟨fun b x hb q hq => ⟨(h.parents b x hb q hq).1, (h.parents b x hb q hq).2.mono hs⟩,
    fun q x hq => (h.guards q x hq).mono hs⟩

theorem Visits.owed (h : c.Visits t w work t') (hfi : t.Fits c.program c.func)
    (ho : Owed t (w :: stack) b x) : Owed t' (work.reverse ++ stack) b x := by
  rcases ho with ho | ⟨w', hw', hn, hf⟩
  · refine .inl ?_
    cases h with
    | known _ _ => exact ho
    | learn _ hl =>
      rw [hl.forced]
      split
      · rw [ScopeSet.contains_union, ho, Bool.true_or]
      · exact ho
  · rcases List.mem_cons.mp hw' with rfl | hw'
    · refine .inl ?_
      cases h with
      | known _ hk =>
        rcases hk with hp | ⟨-, hk⟩
        · rw [hn] at hp
          cases hp
        · have he := ScopeSet.isEmpty_iff.mp (hk b hn) x
          rwa [ScopeSet.contains_diff, hf, Bool.true_and, Bool.not_eq_false'] at he
      | learn _ hl =>
        have hlt : b < t.forced.size := by
          have := (hfi.has_iff _).mp hl.has
          rw [hn] at this
          exact hfi.forced ▸ this
        rw [hl.forced, if_pos ⟨hn, hlt⟩, ScopeSet.contains_union, hf, Bool.or_true]
    · exact .inr ⟨w', List.mem_append_right _ hw', hn, hf⟩

theorem Visits.guarding (h : c.Visits t w work t') (hc : c.ParentsInRange)
    (hf : t.Fits c.program c.func) (hg : c.Guarding t (w :: stack)) :
    c.Guarding t' (work.reverse ++ stack) := by
  have how : ∀ {b x}, Owed t (w :: stack) b x → Owed t' (work.reverse ++ stack) b x :=
    fun ho => h.owed hf ho
  cases h with
  | known _ _ =>
    exact ⟨fun b x hb q hq => ⟨(hg.parents b x hb q hq).1, how (hg.parents b x hb q hq).2⟩,
      fun q x hq => how (hg.guards q x hq)⟩
  | learn _ hl =>
    -- a parent of the block is still to be looked at, with all scopes of the block
    have hp : ∀ {b q x}, w.node = .block b → q ∈ c.parents b →
        ((t.forcedAt b).union w.force).contains x = true → Owed t' (work.reverse ++ stack) q x := by
      intro b q x hn hq hx
      obtain ⟨w', hw', hq'⟩ := hl.exists_work (m := .block q) (by rw [hn]; exact parent_dependsOn hq)
      refine .inr ⟨w', List.mem_append_left _ (List.mem_reverse.mpr hw'), hq', ?_⟩
      rw [hl.force w' hw', hn, hq']
      exact hx
    refine ⟨fun b x hb q hq => ?_, fun q x hq => ?_⟩
    · rw [hl.guards]
      rw [hl.forced] at hb
      split at hb
      · next hs =>
        exact ⟨.inr ⟨hf.guards ▸ hc b q hq, b, hs.1, hq, hb⟩, hp hs.1 hq hb⟩
      · exact ⟨.inl (hg.parents b x hb q hq).1, how (hg.parents b x hb q hq).2⟩
    · rcases (hl.guards q x).mp hq with hq | ⟨-, b, hn, hq, hx⟩
      · exact how (hg.guards q x hq)
      · exact hp hn hq hx

structure Fixed (c : Classifier) (t : Classification) (i : InstId) (info : ValueInfo) : Prop where
  pinned : t.isPinned i = true
  inst_eq : t.inst i = info
  not_load : (c.func.insts[i]?).bind (·.op.loadedGlobal?) = none

theorem Visits.fixed (h : c.Visits t w work t') (hf : c.Fixed t i info) : c.Fixed t' i info := by
  refine ⟨(h.isPinned i).trans hf.pinned, ?_, hf.not_load⟩
  cases h with
  | known _ _ => exact hf.inst_eq
  | learn _ hl =>
    refine ((hl.info (.inst i)).trans (if_neg fun heq => ?_)).trans hf.inst_eq
    have hp : t.fixes w.node = true := heq ▸ hf.pinned
    exact absurd (hp.symm.trans hl.free) (by simp)

variable {rest : List Work} {n : Nat} {name : String} {table : ScopeTable} {e : Endpoint}

theorem Advances.guarding (hc : c.ParentsInRange)
    (h : c.Advances (stack, t) (rest, t')) (hf : t.Fits c.program c.func)
    (hg : c.Guarding t stack) : c.Guarding t' rest := by
  have key : t'.Fits c.program c.func ∧ c.Guarding t' rest :=
    h.invariant (P := fun stack t => t.Fits c.program c.func ∧ c.Guarding t stack)
      (fun _ _ _ _ _ hv ht => ⟨hv.fits ht.1, hv.guarding hc ht.1 ht.2⟩) ⟨hf, hg⟩
  exact key.2

theorem Advances.owed (h : c.Advances (stack, t) (rest, t'))
    (hf : t.Fits c.program c.func) (ho : Owed t stack b x) : Owed t' rest b x := by
  have key : t'.Fits c.program c.func ∧ Owed t' rest b x :=
    h.invariant (P := fun stack t => t.Fits c.program c.func ∧ Owed t stack b x)
      (fun _ _ _ _ _ hv ht => ⟨hv.fits ht.1, hv.owed ht.1 ht.2⟩) ⟨hf, ho⟩
  exact key.2

theorem Advances.fixed (h : c.Advances (stack, t) (rest, t'))
    (hf : c.Fixed t i info) : c.Fixed t' i info :=
  h.invariant (P := fun _ t => c.Fixed t i info) (fun _ _ _ _ _ hv ht => hv.fixed ht) hf

/-- Two tables force and guard alike, and what is fixed in one is fixed in the other. -/
structure Steady (c : Classifier) (t t' : Classification) : Prop where
  fits : t.Fits c.program c.func → t'.Fits c.program c.func
  forced : t'.forced = t.forced
  guards : t'.guards = t.guards
  fixed : ∀ i info, c.Fixed t i info → c.Fixed t' i info

theorem Steady.trans {t'' : Classification} (h : c.Steady t t') (h' : c.Steady t' t'') :
    c.Steady t t'' :=
  ⟨fun ht => h'.fits (h.fits ht), h'.forced.trans h.forced, h'.guards.trans h.guards,
    fun i info hf => h'.fixed i info (h.fixed i info hf)⟩

theorem Steady.forcedAt (h : c.Steady t t') (b : BlockId) : t'.forcedAt b = t.forcedAt b := by
  rw [Classification.forcedAt, h.forced, Classification.forcedAt]

theorem Steady.guardsAt (h : c.Steady t t') (b : BlockId) : t'.guardsAt b = t.guardsAt b := by
  rw [Classification.guardsAt, h.guards, Classification.guardsAt]

theorem Steady.guarding (h : c.Steady t t') (hg : c.Guarding t stack) : c.Guarding t' stack := by
  simpa only [Owed, h.forcedAt, h.guardsAt] using
    (⟨by simpa only [Owed, h.forcedAt, h.guardsAt] using hg.parents,
      by simpa only [Owed, h.forcedAt, h.guardsAt] using hg.guards⟩ : c.Guarding t' stack)

theorem absorb_steady (c : Classifier) (t : Classification) : c.Steady t (c.absorb t) := by
  refine ⟨fits_absorb, rfl, rfl, fun i info hf => ⟨hf.pinned, ?_, hf.not_load⟩⟩
  rw [inst_absorb, absorbInst, hf.not_load, hf.inst_eq, ite_self]

theorem Raises.steady (h : Raises t t') : c.Steady t t' :=
  ⟨h.fits, h.forced, h.guards, fun i _ hf =>
    ⟨(h.isPinned i).trans hf.pinned, (h.fixed i hf.pinned).trans hf.inst_eq, hf.not_load⟩⟩

theorem resolve_steady (c : Classifier) (t : Classification) : c.Steady t (c.resolve t).2 :=
  (absorb_steady c t).trans (raises_settle c _ _).steady

structure Guarded (c : Classifier) (n : Nat) (t : Classification) : Prop where
  sound : c.Sound n t
  guarding : c.Guarding t []

theorem sat_classify_guarded (hss : c.func.Ssa c.program) (hc : c.ParentsInRange)
    (hp : c.strategy = .plain) (hn : 0 < n) (h : c.Guarded n s.table)
    (hwo : ∀ w ∈ work, w.InRange c.program c.func) :
    Act.Sat Act.Never (c.classify work) s fun _ s' => c.Guarded n s'.table ∧
      (∀ b x, Owed s.table work b x → (s'.table.forcedAt b).contains x = true) ∧
      ∀ i info, c.Fixed s.table i info → c.Fixed s'.table i info := by
  have han : Act.Sat Act.Any (c.classify work) s fun _ s' => c.Guarding s'.table [] ∧
      (∀ b x, Owed s.table work b x → (s'.table.forcedAt b).contains x = true) ∧
      ∀ i info, c.Fixed s.table i info → c.Fixed s'.table i info := by
    simp only [classify, Act.sat_bind, Act.sat_get, Act.sat_ofExcept, Act.sat_set]
    refine ⟨fun s1 hpr => ?_, fun _ _ => trivial⟩
    have ha := advances_of_propagate h.sound.fits hpr
    have hg := ha.guarding hc h.sound.fits (h.guarding.mono (by simp))
    have hs := resolve_steady c s1.table
    rw [Act.sat_any_iff]
    intro a s' hs'
    have ht : s'.table = (c.resolve s1.table).2 := by
      have := congrArg (fun r => r.2.table) hs'
      exact this.symm
    rw [ht]
    refine ⟨hs.guarding hg, fun b x ho => ?_, fun i info hf => ?_⟩
    · rw [Classification.forcedAt, hs.forced]
      rcases ha.owed h.sound.fits (ho.mono (by simp)) with hfo | ⟨w, hw, -⟩
      · exact hfo
      · simp at hw
    · exact hs.fixed i info (ha.fixed hf)
  exact ((sat_classify hss hc hp hn h.sound hwo).and han).mono
    fun _ s' h => ⟨⟨h.1, h.2.1⟩, h.2.2⟩

/-- The writes of a sink are fixed in the required scope, and those that must keep their branches
force their blocks into it. -/
structure Seeds (c : Classifier) (t : Classification) (e : Endpoint) : Prop where
  fixed : ∀ site ∈ c.sinkSites e.name, c.Fixed t site.inst ⟨some e.scope, e.flags⟩
  forced : ∀ site ∈ c.sinkSites e.name, site.conditional = true →
    (t.forcedAt site.block).contains e.scope = true

theorem sinkSites_disjoint {name' : String} {site site' : SinkSite}
    (h : site ∈ c.sinkSites name) (h' : site' ∈ c.sinkSites name') (hne : name ≠ name') :
    site.inst ≠ site'.inst := by
  intro heq
  obtain ⟨inst, hi, -, -, hcas⟩ := mem_sinkSites h
  obtain ⟨inst', hi', -, -, hca'⟩ := mem_sinkSites h'
  rw [heq, hi'] at hi
  obtain rfl := Option.some.inj hi
  -- the first binding or declaration of two names has both names
  rcases hcas with ⟨v, addr, hop, hs, hg⟩ | ⟨callee, args, hop, hc⟩
  · rcases hca' with ⟨v', addr', hop', -, hg'⟩ | ⟨_, _, hop', -⟩
    · obtain ⟨-, rfl⟩ := Operation.store.inj (hop.symm.trans hop')
      obtain ⟨g, hg1⟩ := Option.isSome_iff_exists.mp hs
      have hg2 : c.program.globalNamed? name' = some g := by rw [← hg', hg, hg1]
      obtain ⟨hlt, hn, -⟩ := List.findIdx?_eq_some_iff_getElem.mp hg1
      obtain ⟨_, hn', -⟩ := List.findIdx?_eq_some_iff_getElem.mp hg2
      exact hne ((beq_iff_eq.mp hn).symm.trans (beq_iff_eq.mp hn'))
    · exact absurd (hop.symm.trans hop') (by simp)
  · rcases hca' with ⟨_, _, hop', -⟩ | ⟨callee', args', hop', hc'⟩
    · exact absurd (hop.symm.trans hop') (by simp)
    · obtain ⟨hca, -⟩ := Operation.call.inj (hop.symm.trans hop')
      obtain rfl := Callee.direct.inj hca
      obtain ⟨hlt, hn, -⟩ := List.findIdx?_eq_some_iff_getElem.mp hc
      obtain ⟨_, hn', -⟩ := List.findIdx?_eq_some_iff_getElem.mp hc'
      exact hne ((beq_iff_eq.mp hn).symm.trans (beq_iff_eq.mp hn'))

theorem not_load_of_mem_sinkSites {site : SinkSite}
    (h : site ∈ c.sinkSites name) :
    (c.func.insts[site.inst]?).bind (·.op.loadedGlobal?) = none := by
  obtain ⟨inst, hi, -, -, ⟨v, addr, hop, -⟩ | ⟨callee, args, hop, -⟩⟩ := mem_sinkSites h <;>
    simp [hi, hop, Operation.loadedGlobal?]

theorem Fixed.pin {j : InstId} {info' : ValueInfo} (hf : c.Fixed t i info)
    (hne : i = j → info = info') : c.Fixed (t.pin j info') i info := by
  refine ⟨?_, (t.info_pin j info' (.inst i)).trans ?_, hf.not_load⟩
  · rw [Classification.isPinned_pin, hf.pinned, ite_self]
  · split
    · next he => exact (hne (Node.inst.inj he.1)).symm
    · exact hf.inst_eq

theorem fixed_pin_self (hf : t.Fits c.program c.func) (hi : i < c.func.numInsts)
    (hl : (c.func.insts[i]?).bind (·.op.loadedGlobal?) = none) :
    c.Fixed (t.pin i info) i info := by
  refine ⟨?_, (t.info_pin i info (.inst i)).trans (if_pos ⟨rfl, hf.insts ▸ hi⟩), hl⟩
  rw [Classification.isPinned_pin, if_pos ⟨rfl, hf.pinned ▸ hi⟩]

section Pins

variable {name : String} {required : Scope} {flags : UsageFlags} {sites : List SinkSite}

theorem pins_guarding (hg : c.Guarding t []) (sites : List SinkSite) (info : ValueInfo) :
    c.Guarding (sites.foldl (fun t w => t.pin w.inst info) t) [] := by
  induction sites generalizing t with
  | nil => exact hg
  | cons site sites ih => exact ih ⟨hg.parents, hg.guards⟩

theorem Fixed.pins (hf : c.Fixed t i info)
    (hne : ∀ site ∈ sites, i = site.inst → info = ⟨some required, flags⟩) :
    c.Fixed (sites.foldl (fun t w => t.pin w.inst ⟨some required, flags⟩) t) i info := by
  induction sites generalizing t with
  | nil => exact hf
  | cons site sites ih =>
    exact ih (hf.pin (hne site (by simp))) fun site' hs => hne site' (by simp [hs])

theorem fixed_pins (hfi : t.Fits c.program c.func)
    (hsi : ∀ site ∈ sites, site ∈ c.sinkSites name) {site : SinkSite} (hs : site ∈ sites) :
    c.Fixed (sites.foldl (fun t w => t.pin w.inst ⟨some required, flags⟩) t) site.inst
      ⟨some required, flags⟩ := by
  induction sites generalizing t with
  | nil => simp at hs
  | cons first sites ih =>
    have hf := hsi first (by simp)
    rcases List.mem_cons.mp hs with rfl | hs
    · obtain ⟨inst, hi, -⟩ := mem_sinkSites hf
      have hlt : site.inst < c.func.numInsts := (Array.getElem?_eq_some_iff.mp hi).1
      refine (fixed_pin_self hfi hlt (not_load_of_mem_sinkSites hf)).pins ?_
      exact fun _ _ _ => rfl
    · exact ih (hfi.pin ..) (fun x hx => hsi x (by simp [hx])) hs

end Pins

/-- A sink fixes its writes and forces their blocks; sinks of other names keep theirs. -/
theorem sat_classifySink_seeds (hss : c.func.Ssa c.program) (hc : c.ParentsInRange)
    (hp : c.strategy = .plain) {others : List Endpoint} (hsc : e.scope.val < n)
    (hl : e.scope.val < Scope.limit) (hna : ∀ e' ∈ others, e'.name ≠ e.name)
    (h : c.Guarded n s.table) (ho : ∀ e' ∈ others, c.Seeds s.table e') :
    Act.Sat Act.Never (c.classifySink e.name e.scope e.flags) s fun _ s' =>
      c.Guarded n s'.table ∧ c.Seeds s'.table e ∧ ∀ e' ∈ others, c.Seeds s'.table e' := by
  have hn : 0 < n := by omega
  unfold classifySink
  simp only
  cases hla : (c.sinkSites e.name).getLast? with
  | none =>
    simp only [Act.sat_bind, Act.sat_modify, Act.sat_pure]
    have hni := List.getLast?_eq_none_iff.mp hla
    exact ⟨h, ⟨by simp [hni], by simp [hni]⟩, ho⟩
  | some last =>
    simp only [Act.sat_bind, Act.sat_modify, Act.sat_get]
    have hso := pins_sound e.flags hsc (fun _ h => h : ∀ site ∈ c.sinkSites e.name,
      site ∈ c.sinkSites e.name) h.sound
    have hgu := pins_guarding h.guarding (c.sinkSites e.name) ⟨some e.scope, e.flags⟩
    refine (sat_classify_guarded hss hc hp hn ⟨hso, hgu⟩
      (sinkWork_inRange hss e.name e.scope e.flags)).mono ?_
    rintro _ s' ⟨hg, how, hf⟩
    have hse : c.Seeds s'.table e := by
      refine ⟨fun site hs => hf _ _ (fixed_pins h.sound.fits (fun _ h => h) hs),
        fun site hs hco => how _ _ (.inr ?_)⟩
      refine ⟨⟨.block site.block, e.flags, .single e.scope⟩, ?_, rfl, ?_⟩
      · refine List.mem_flatMap.mpr ⟨site, hs, List.mem_append_right _ ?_⟩
        simp [hco]
      · simp [ScopeSet.contains_single, hl]
    have hr : ∀ e' ∈ others, c.Seeds s'.table e' := by
      intro e' he'
      obtain ⟨hfi', hf'⟩ := ho e' he'
      refine ⟨fun site hs => hf _ _ ((hfi' site hs).pins fun site' hs' heq => ?_),
        fun site hs hco => how _ _ (.inl ?_)⟩
      · exact absurd heq (sinkSites_disjoint hs hs' (hna e' he'))
      · have hk : ∀ (sites : List SinkSite) (t : Classification),
            (sites.foldl (fun t w => t.pin w.inst ⟨some e.scope, e.flags⟩) t).forced
              = t.forced := by
          intro sites
          induction sites with
          | nil => exact fun _ => rfl
          | cons site sites ih => exact fun t => ih _
        rw [Classification.forcedAt, hk]
        exact hf' site hs hco
    cases last.value <;> exact ⟨hg, hse, hr⟩

/-- Sinks with distinct names are seeded one after another, and no later one undoes an earlier one.
-/
theorem sat_classifySinks_seeds (others : List Endpoint) (hss : c.func.Ssa c.program)
    (hc : c.ParentsInRange) (hp : c.strategy = .plain) {sinks : List Endpoint}
    (hs : ∀ e ∈ sinks, e.scope.val < n ∧ e.scope.val < Scope.limit)
    (hn : ((others ++ sinks).map Endpoint.name).Nodup) (h : c.Guarded n s.table)
    (ho : ∀ e ∈ others, c.Seeds s.table e) :
    Act.Sat Act.Never (c.classifySinks sinks) s fun _ s' =>
      c.Guarded n s'.table ∧ ∀ e ∈ others ++ sinks, c.Seeds s'.table e := by
  unfold classifySinks
  induction sinks generalizing s others with
  | nil =>
    rw [List.append_nil]
    exact ⟨h, ho⟩
  | cons e sinks ih =>
    simp only [List.mapM_cons, Act.sat_bind, Act.sat_pure]
    have hne : ∀ e' ∈ others, e'.name ≠ e.name := by
      intro e' he' heq
      rw [List.map_append, List.nodup_append] at hn
      exact hn.2.2 _ (List.mem_map_of_mem he') _ (by simp) heq
    obtain ⟨hsc, hl⟩ := hs e (by simp)
    refine (sat_classifySink_seeds hss hc hp hsc hl hne h ho).mono ?_
    rintro _ s1 ⟨hg, hse, hr⟩
    have ha : ∀ e' ∈ others ++ [e], c.Seeds s1.table e' := by
      intro e' he'
      rcases List.mem_append.mp he' with he' | he'
      · exact hr e' he'
      · obtain rfl := List.mem_singleton.mp he'
        exact hse
    refine (ih (others ++ [e]) (fun e' he' => hs e' (by simp [he'])) (by simpa using hn) hg
      ha).mono ?_
    rintro _ s2 ⟨hg', ha'⟩
    exact ⟨hg', by simpa using ha'⟩

theorem sat_declareRootNamed_guarded {scope : Scope} {flags : UsageFlags}
    (hs : scope.val < n) (h : c.Guarded n s.table) :
    Act.Sat Act.Never (c.declareRootNamed name scope flags) s fun _ s' => c.Guarded n s'.table := by
  have hg : Act.Sat Act.Any (c.declareRootNamed name scope flags) s
      fun _ s' => c.Guarding s'.table [] := by
    unfold declareRootNamed
    split
    · simp only [declareRoot, Act.sat_bind, Act.sat_get]
      split
      · exact ⟨h.guarding.parents, h.guarding.guards⟩
      · trivial
    · exact h.guarding
  exact ((sat_declareRootNamed hs h.sound).and hg).mono fun _ _ h => ⟨h.1, h.2⟩

theorem forcedAt_initial (c : Classifier) (b : BlockId) (x : Scope) :
    (c.initial.table.forcedAt b).contains x = false := by
  simp only [initial, Classification.unknown, Classification.forcedAt, Array.getElem?_replicate]
  split <;> simp

theorem guardsAt_initial (c : Classifier) (b : BlockId) (x : Scope) :
    (c.initial.table.guardsAt b).contains x = false := by
  simp only [initial, Classification.unknown, Classification.guardsAt, Array.getElem?_replicate]
  split <;> simp

theorem initial_guarding : c.Guarding c.initial.table [] :=
  ⟨fun b x hb => absurd hb (by simp [forcedAt_initial]),
    fun q x hq => absurd hq (by simp [guardsAt_initial])⟩

theorem sat_declareRoots_guarded (hv : table.validate = .ok ()) :
    Act.Sat Act.Never (table.roots.forM fun root =>
      c.declareRootNamed root.name root.scope root.flags) c.initial
        fun _ s' => c.Guarded table.size s'.table := by
  refine Act.sat_forM (P := fun s : State => c.Guarded table.size s.table)
    ⟨initial_sound, initial_guarding⟩ fun root hr s hs => ?_
  have hm : root.scope ∈ table.mentioned := by
    simp only [ScopeTable.mentioned, List.mem_append, List.mem_map]
    exact .inl (.inl ⟨root, hr, rfl⟩)
  exact sat_declareRootNamed_guarded (ScopeTable.declares_of_mentioned hv hm).1 hs

theorem sinks_declared (hv : table.validate = .ok ()) (he : e ∈ table.sinks) :
    e.scope.val < table.size ∧ e.scope.val < Scope.limit := by
  have hm : e.scope ∈ table.mentioned := by
    simp only [ScopeTable.mentioned, List.mem_append, List.mem_map]
    exact .inl (.inr ⟨e, he, rfl⟩)
  obtain ⟨hlt, hle⟩ := ScopeTable.declares_of_mentioned hv hm
  exact ⟨hlt, Nat.lt_of_lt_of_le hlt hle⟩

theorem sat_classifyTable_seeds (hs : c.func.Ssa c.program) (hc : c.ParentsInRange)
    (hp : c.strategy = .plain) (hv : table.validate = .ok ())
    (hn : (table.sinks.map Endpoint.name).Nodup) :
    Act.Sat Act.Never (c.classifyTable table (pure ())) c.initial fun _ s' =>
      c.Guarded table.size s'.table ∧ ∀ e ∈ table.sinks, c.Seeds s'.table e := by
  unfold classifyTable
  simp only [Act.sat_bind, Act.sat_pure]
  refine (sat_declareRoots_guarded hv).mono fun _ s' hs' => ?_
  exact (sat_classifySinks_seeds [] hs hc hp (fun e he => sinks_declared hv he)
    (by simpa using hn) hs' (by simp)).mono fun _ _ h => h

theorem sat_classifyTable_guarded (hss : c.func.Ssa c.program) (hc : c.ParentsInRange)
    (hp : c.strategy = .plain) (hv : table.validate = .ok ()) :
    Act.Sat Act.Never (c.classifyTable table (pure ())) c.initial fun _ s' =>
      c.Guarded table.size s'.table := by
  unfold classifyTable classifySinks
  simp only [Act.sat_bind, Act.sat_pure]
  refine (sat_declareRoots_guarded hv).mono fun _ s0 hs0 => ?_
  refine Act.Sat.mono (Q := fun _ s' => c.Guarded table.size s'.table) ?_ fun _ _ h => h
  have hs := fun e he => sinks_declared hv (e := e) he
  generalize table.sinks = sinks at hs
  induction sinks generalizing s0 with
  | nil => exact hs0
  | cons e sinks ih =>
    simp only [List.mapM_cons, Act.sat_bind, Act.sat_pure]
    obtain ⟨hsc, hl⟩ := hs e (by simp)
    have hn : ∀ e' ∈ ([] : List Endpoint), e'.name ≠ e.name := by simp
    have ho := sat_classifySink_seeds hss hc hp hsc hl hn hs0 (by simp)
    exact ho.mono fun _ s1 h => ih s1 h.1 fun e' he' => hs e' (by simp [he'])

theorem Guarding.guardsAt (hg : c.Guarding t []) (hb : (t.forcedAt b).contains x = true)
    (h : Relation.TransGen (fun b q => q ∈ c.parents b) b q) :
    (t.guardsAt q).contains x = true := by
  have hf : ∀ {q}, Owed t [] q x → (t.forcedAt q).contains x = true := by
    rintro q (h | ⟨w, hw, -⟩)
    · exact h
    · simp at hw
  have key : (t.guardsAt q).contains x = true ∧ (t.forcedAt q).contains x = true := by
    induction h with
    | single hq => exact ⟨(hg.parents b x hb _ hq).1, hf (hg.parents b x hb _ hq).2⟩
    | tail _ hq ih => exact ⟨(hg.parents _ x ih.2 _ hq).1, hf (hg.parents _ x ih.2 _ hq).2⟩
  exact key.1

theorem Guarding.forcedAt_of_guardsAt (hg : c.Guarding t [])
    (hq : (t.guardsAt q).contains x = true) : (t.forcedAt q).contains x = true := by
  rcases hg.guards q x hq with h | ⟨w, hw, -⟩
  · exact h
  · simp at hw

end Classifier

end Stagewise
