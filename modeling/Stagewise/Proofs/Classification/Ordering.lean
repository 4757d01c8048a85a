import Stagewise.Proofs.Classification.Totality
import Stagewise.Proofs.Flow.Joins

namespace Stagewise

namespace ScopeTable

variable {p : Program} {table : ScopeTable} {g : GlobalId}

theorem exists_root_of_rootScope {x : Scope} (h : Request.rootScope p table.declarations g = some x) :
    ∃ e ∈ table.roots, p.globalNamed? e.name = some g ∧ e.scope = x := by
  obtain ⟨r, hr, hs⟩ := List.mem_filterMap.mp (List.mem_reverse.mp (mem_of_lookup h))
  obtain ⟨e, he, rfl⟩ := List.mem_map.mp hr
  obtain ⟨g', hg', heq⟩ := Option.map_eq_some_iff.mp hs
  obtain ⟨rfl, rfl⟩ := Prod.mk.inj heq
  exact ⟨e, he, hg', rfl⟩

theorem rootScope_declarations {root : Endpoint} (hn : (table.roots.map Endpoint.name).Nodup)
    (hr : root ∈ table.roots) (hg : p.globalNamed? root.name = some g) :
    Request.rootScope p table.declarations g = some root.scope := by
  have hnam : ∀ {name}, p.globalNamed? name = some g → name = root.name := by
    intro name hso
    obtain ⟨hlt, hf, -⟩ := List.findIdx?_eq_some_iff_getElem.mp hso
    obtain ⟨_, hf', -⟩ := List.findIdx?_eq_some_iff_getElem.mp hg
    exact (beq_iff_eq.mp hf).symm.trans (beq_iff_eq.mp hf')
  cases hs : Request.rootScope p table.declarations g with
  | none =>
    have hm : (g, root.scope) ∈ (table.declarations.filterMap (Request.root? p)).reverse := by
      refine List.mem_reverse.mpr (List.mem_filterMap.mpr ⟨_, List.mem_map_of_mem hr, ?_⟩)
      simp [Request.root?, hg]
    exact absurd (List.lookup_eq_none_iff.mp hs _ hm) (by simp)
  | some x =>
    obtain ⟨e, he, hna, rfl⟩ := exists_root_of_rootScope hs
    rw [List.inj_on_of_nodup_map hn he hr (hnam hna)]

end ScopeTable

namespace Classifier

variable {c : Classifier} {t t' : Classification} {w : Work} {work stack : List Work} {i : InstId}
  {b q : BlockId} {n : Node} {roots : GlobalId → Option Scope} {W : InstId → Scope → Prop} {x : Scope}
  {name : String}

def Awaited (t : Classification) (stack : List Work) (n : Node) : Prop :=
  (t.info n).isUsed = true ∨ ∃ w ∈ stack, w.node = n ∧ w.flags.isEmpty = false

theorem Awaited.isUsed (h : Awaited t [] n) : (t.info n).isUsed = true :=
  h.resolve_right fun ⟨_, hw, _⟩ => absurd hw List.not_mem_nil

/-- Uses reach the binding of a used load, the blocks that a used phi names and those that decide
about a used block, up to what some work still does. -/
structure Inflows (c : Classifier) (t : Classification) (stack : List Work) : Prop where
  load : ∀ (i : InstId) (inst : Inst) addr g, c.func.insts[i]? = some inst → inst.op = .load addr →
    addr.global? = some g → (t.inst i).isUsed = true → Awaited t stack (.global g)
  phi : ∀ (i : InstId) (inst : Inst) incoming, c.func.insts[i]? = some inst →
    inst.op = .phi incoming → (t.inst i).isUsed = true → ∀ e ∈ incoming, Awaited t stack (.block e.1)
  parent : ∀ b, (t.block b).isUsed = true → ∀ q ∈ c.parents b, Awaited t stack (.block q)

theorem Inflows.mono {stack' : List Work} (h : c.Inflows t stack)
    (ha : ∀ n, Awaited t stack n → Awaited t stack' n) : c.Inflows t stack' :=
  ⟨fun i inst addr g hi hop hg hu => ha _ (h.load i inst addr g hi hop hg hu),
    fun i inst incoming hi hop hu e he => ha _ (h.phi i inst incoming hi hop hu e he),
    fun b hu q hq => ha _ (h.parent b hu q hq)⟩

theorem Visits.awaited (h : c.Visits t w work t') (hfr : t.fixes n = false)
    (ha : Awaited t (w :: stack) n) : Awaited t' (work.reverse ++ stack) n := by
  rcases ha with hu | ⟨w', hw', hn, hf⟩
  · exact .inl ((h.isUsed_iff hfr).mpr (.inl hu))
  · rcases List.mem_cons.mp hw' with rfl | hw'
    · exact .inl ((h.isUsed_iff hfr).mpr (.inr ⟨hn, hf⟩))
    · exact .inr ⟨w', List.mem_append_right _ hw', hn, hf⟩

theorem Learns.awaited {m : Node} (h : c.Learns t w work t') (hu : (t'.info n).isUsed = true)
    (hs : n = w.node) (hc : ∀ (i : InstId) (inst : Inst) callee args, n = .inst i →
      c.func.insts[i]? = some inst → inst.op ≠ .call (.direct callee) args)
    (hm : m ∈ c.leads n) : Awaited t' (work.reverse ++ stack) m := by
  subst hs
  obtain ⟨w', hw', hn⟩ := h.exists_work hm
  refine .inr ⟨w', List.mem_append_left _ (List.mem_reverse.mpr hw'), hn, ?_⟩
  rw [h.info, if_pos rfl] at hu
  rcases h.flags w' hw' with hp | ⟨i, inst, callee, args, -, hi, hin, hop, -⟩
  · rw [hp]
    simpa [ValueInfo.isUsed] using hu
  · exact absurd hop (hc i inst callee args hi hin)

/-- A node that becomes used asks for its binding, for the blocks of its phi, or for its branches.
-/
theorem Visits.inflows (h : c.Visits t w work t') (hf : c.Inflows t (w :: stack)) :
    c.Inflows t' (work.reverse ++ stack) := by
  -- the node of the work may have become used, all others were so before
  have key : ∀ {n m}, t.fixes m = false → m ∈ c.leads n →
      (∀ (i : InstId) (inst : Inst) callee args, n = .inst i → c.func.insts[i]? = some inst →
        inst.op ≠ .call (.direct callee) args) →
      ((t.info n).isUsed = true → Awaited t (w :: stack) m) → (t'.info n).isUsed = true →
      Awaited t' (work.reverse ++ stack) m := by
    intro n m hfr hm hc ho hu
    have hs := h
    cases h with
    | known _ _ => exact hs.awaited hfr (ho hu)
    | learn _ hl =>
      by_cases hse : n = w.node
      · exact hl.awaited hu hse hc hm
      · rw [hl.info, if_neg hse] at hu
        exact hs.awaited hfr (ho hu)
  have hd : ∀ {i inst m}, c.func.insts[i]? = some inst → m ∈ inst.op.dependencies →
      m ∈ c.leads (.inst i) := fun hi hm => mem_leads_of_dependsOn (operation_dependsOn hi hm)
  refine ⟨fun i inst addr g hi hop hg => ?_, fun i inst incoming hi hop hu e he => ?_,
    fun b hu q hq => ?_⟩
  · refine key (n := .inst i) rfl (hd hi ?_) (fun j inst' callee args hj hi' hop' => ?_)
      (hf.load i inst addr g hi hop hg)
    · rw [hop, Operation.dependencies, hg]
      exact List.mem_cons_self
    · obtain rfl := Node.inst.inj hj
      obtain rfl := Option.mem_unique hi hi'
      exact absurd (hop.symm.trans hop') (by simp)
  · refine key (n := .inst i) rfl (hd hi ?_) (fun j inst' callee args hj hi' hop' => ?_)
      (fun ho => hf.phi i inst incoming hi hop ho e he) hu
    · rw [hop]
      exact List.mem_flatMap.mpr ⟨e, he, List.mem_append_right _ (List.mem_singleton.mpr rfl)⟩
    · obtain rfl := Node.inst.inj hj
      obtain rfl := Option.mem_unique hi hi'
      exact absurd (hop.symm.trans hop') (by simp)
  · exact key (n := .block b) rfl (parent_dependsOn hq) (by simp)
      (fun ho => hf.parent b ho q hq) hu

theorem SameUses.inflows (h : SameUses t t') (hf : c.Inflows t []) : c.Inflows t' [] := by
  have ha : ∀ {n}, Awaited t [] n → Awaited t' [] n := fun {n} hn =>
    .inl ((h.isUsed n).trans hn.isUsed)
  have hu : ∀ {i}, (t'.inst i).isUsed = true → (t.inst i).isUsed = true := fun {i} hi =>
    (h.isUsed (.inst i)).symm.trans hi
  exact ⟨fun i inst addr g hin hop hg hi => ha (hf.load i inst addr g hin hop hg (hu hi)),
    fun i inst incoming hin hop hi e he => ha (hf.phi i inst incoming hin hop (hu hi) e he),
    fun b hb q hq => ha (hf.parent b ((h.isUsed (.block b)).symm.trans hb) q hq)⟩

theorem Inflows.pin {site : SinkSite} {info : ValueInfo} (hf : c.Inflows t [])
    (hs : site ∈ c.sinkSites name) : c.Inflows (t.pin site.inst info) [] := by
  have ho : ∀ {i}, i ≠ site.inst → (t.pin site.inst info).inst i = t.inst i := by
    intro i hne
    have hp := Classification.info_pin t site.inst info (.inst i)
    rwa [if_neg fun h => hne (Node.inst.inj h.1)] at hp
  refine ⟨fun i inst addr g hi hop hg hu => hf.load i inst addr g hi hop hg (ho ?_ ▸ hu),
    fun i inst incoming hi hop hu => hf.phi i inst incoming hi hop (ho ?_ ▸ hu),
    hf.parent⟩
  · rintro rfl
    exact (op_ne_of_mem_sinkSites hs hi).1 addr hop
  · rintro rfl
    exact (op_ne_of_mem_sinkSites hs hi).2 incoming hop

structure Ranks (c : Classifier) (roots : GlobalId → Option Scope) (W : InstId → Scope → Prop)
    (t : Classification) (stack : List Work) : Prop extends c.Anchored roots W t where
  inflows : c.Inflows t stack

theorem Ranks.push (h : c.Ranks roots W t []) (work : List Work) : c.Ranks roots W t work :=
  ⟨h.toAnchored, h.inflows.mono fun _ hn => .inl hn.isUsed⟩

theorem Ranks.propagate {s s1 : State} (h : c.Ranks roots W s.table work.reverse)
    (hp : c.propagate work s = .ok s1) : c.Ranks roots W s1.table [] := by
  have ha := advances_of_propagate h.fits hp
  exact ⟨h.toAnchored.advances ha, ha.invariant (P := fun stack t => c.Inflows t stack)
    (fun _ _ _ _ _ hv ht => hv.inflows ht) h.inflows⟩

theorem Ranks.resolve (h : c.Ranks roots W t []) : c.Ranks roots W (c.resolve t).2 [] :=
  ⟨h.toAnchored.resolve, (sameUses_resolve c t).inflows h.inflows⟩

theorem Ranks.pinSites {flags : UsageFlags} (h : c.Ranks roots W t [])
    (hW : ∀ site ∈ c.sinkSites name, W site.inst x) :
    c.Ranks roots W (c.pinSites name x flags t) [] :=
  pinSites_invariant (P := fun t => c.Ranks roots W t []) (fun site hs _ h =>
    ⟨h.toAnchored.pin (hW site hs) flags, h.inflows.pin hs⟩) h

structure Ranked (c : Classifier) (roots : GlobalId → Option Scope) (W : InstId → Scope → Prop)
    (t : Classification) : Prop extends c.Ranks roots W t [] where
  settled : c.Settled t

section Runs

variable {s : State} {table : ScopeTable}

theorem Ranks.sat_resolveAll (h : c.Ranks roots W s.table []) :
    Act.Sat Act.Any c.resolveAll s fun _ s' => c.Ranked roots W s'.table := by
  rw [Act.sat_any_iff]
  rintro ⟨⟩ s' hr
  obtain ⟨hok, rfl⟩ := Prod.mk.inj hr
  exact ⟨h.resolve, settled_resolve h.fits hok⟩

theorem Ranks.sat_classify (h : c.Ranks roots W s.table []) :
    Act.Sat Act.Any (c.classify work) s fun _ s' => c.Ranked roots W s'.table := by
  simp only [classify, Act.sat_bind, Act.sat_get, Act.sat_ofExcept, Act.sat_set]
  exact ⟨fun s1 hp => ((h.push _).propagate hp).sat_resolveAll, fun _ _ => trivial⟩

theorem Ranked.sat_classifySink {name : String} {flags : UsageFlags} (h : c.Ranked roots W s.table)
    (hW : ∀ site ∈ c.sinkSites name, W site.inst x) :
    Act.Sat Act.Any (c.classifySink name x flags) s fun _ s' => c.Ranked roots W s'.table := by
  unfold classifySink
  simp only
  split
  · exact h
  · next last _ =>
    simp only [Act.sat_bind, Act.sat_modify, Act.sat_get]
    have hp : c.Ranks roots W (c.pinSites name x flags s.table) [] := h.toRanks.pinSites hW
    refine hp.sat_classify.mono fun _ s' hs' => ?_
    cases last.value <;> exact hs'

theorem Ranked.sat_classifySinks {entries : List Endpoint} (h : c.Ranked roots W s.table)
    (hW : ∀ e ∈ entries, ∀ site ∈ c.sinkSites e.name, W site.inst e.scope) :
    Act.Sat Act.Any (c.classifySinks entries) s fun _ s' => c.Ranked roots W s'.table := by
  unfold classifySinks
  refine (Act.sat_mapM (P := fun s => c.Ranked roots W s.table) (R := fun _ _ => True) h
    fun e he s hs => ?_).mono fun _ _ hs => hs.1
  simp only [Act.sat_bind, Act.sat_pure]
  exact (hs.sat_classifySink (hW e he)).mono fun _ _ hs' => ⟨hs', trivial⟩

theorem ranked_of_declares {requests : List Request} {s : Session}
    (h : c.Responses requests c.openSession s) (hr : ∀ r ∈ requests, r.isRoot = true) :
    c.Ranked (Request.rootScope c.program requests) W s.state.table := by
  have hc := charted_of_declares (B := fun _ _ => True) (W := fun _ _ => False) h hr
    fun _ _ _ => trivial
  have hun : ∀ i, ¬(s.state.table.inst i).isUsed = true := by
    intro i hu
    rw [show s.state.table.inst i = _ from info_of_declares (n := .inst i) h hr (by simp)] at hu
    cases hu
  refine ⟨⟨⟨hc.fits, hc.roots, fun i hi => ?_⟩, ⟨fun i _ _ _ _ _ _ hu => absurd hu (hun i),
    fun i _ _ _ _ hu => absurd hu (hun i), fun b hu q hq => ?_⟩⟩, hc.settled⟩
  · obtain ⟨_, -, hf⟩ := hc.pinned i hi
    exact hf.elim
  · exact .inl (hc.flowing.leads (.block b) hu rfl (.block q) (parent_dependsOn hq)).isUsed

/-- Classifying by a table places its bindings and the writes of its sinks as they are declared, and
all else no earlier than what it depends on. -/
theorem ranked_classifyTable :
    Act.Sat Act.Any (c.classifyTable table (pure ())) c.initial fun _ s' =>
      c.Ranked (Request.rootScope c.program table.declarations) (c.Writes table.demands) s'.table := by
  unfold classifyTable
  simp only [Act.sat_bind, Act.sat_pure]
  refine (sat_roots_responds _).mono fun _ s1 hro => ?_
  have hr : c.Ranked _ (c.Writes table.demands) s1.table :=
    ranked_of_declares hro table.isRoot_declarations
  refine (hr.sat_classifySinks fun e he site hsi => ?_).mono fun _ _ hs => hs
  exact ⟨e.name, e.flags, List.mem_map.mpr ⟨e, he, rfl⟩, site, hsi, rfl⟩

end Runs

section Bounds

variable {inst : Inst} {v : Value} {incoming : List (BlockId × Value)}

theorem rank_incoming_le {e : BlockId × Value} (he : e ∈ incoming) (flags : UsageFlags) :
    Scope.rank (t.valueScope e.2) ≤ Scope.rank (c.operandScope t i (.phi incoming) flags) ∧
      Scope.rank (t.block e.1).scope ≤ Scope.rank (c.operandScope t i (.phi incoming) flags) := by
  have hle := (@rank_le_latest none
    (incoming.map fun e => Scope.later (t.valueScope e.2) (t.block e.1).scope)).2 _
      (List.mem_map_of_mem he)
  rw [Scope.rank_later] at hle
  exact max_le_iff.mp hle

/-- The scope of an operand counts in the scope of its operation, indirect calls apart. -/
theorem rank_valueScope_le (hr : c.func.InstInRange c.program inst)
    (hd : ∀ callee args, inst.op ≠ .call (.indirect callee) args) (hv : v ∈ inst.op.operands)
    (flags : UsageFlags) :
    Scope.rank (t.valueScope v) ≤ Scope.rank (c.operandScope t i inst.op flags) := by
  have hl : ∀ {first : Option Scope} {vs : List Value}, v ∈ vs →
      Scope.rank (t.valueScope v) ≤ Scope.rank (Scope.latest first (vs.map t.valueScope)) :=
    fun hv => rank_le_latest.2 _ (List.mem_map_of_mem hv)
  cases hop : inst.op with
  | load addr =>
    rw [hop] at hv
    cases ha : addr.global? with
    | none => cases addr <;> simp_all [Address.global?, Operation.operands, Address.indexValues, Address.steps]
    | some g =>
      simp only [operandScope, ha]
      exact hl hv
  | phi incoming =>
    rw [hop] at hv
    obtain ⟨e, he, rfl⟩ := List.mem_map.mp hv
    exact (rank_incoming_le he flags).1
  | call callee args =>
    cases callee with
    | indirect f => exact absurd hop (hd f args)
    | direct callee =>
      have hlt := hr.callee callee args hop
      rw [hop] at hv
      simp only [operandScope, callRule?, List.getElem?_eq_getElem hlt, Option.map_some]
      exact hl (by simpa [Operation.operands, Callee.operands] using hv)
  | _ =>
    rw [hop] at hv
    exact hl hv

theorem Ranked.decides (h : c.Ranked roots W t) (hu : (t.block q).isUsed = true) (hd : c.Decides b q) :
    (t.block b).isUsed = true ∧ Scope.rank (t.block b).scope ≤ Scope.rank (t.block q).scope := by
  induction hd with
  | refl => exact ⟨hu, le_refl _⟩
  | tail _ hp ih =>
    obtain ⟨hm, hle⟩ := ih
    exact ⟨(h.inflows.parent _ hm _ hp).isUsed, (h.settled.parent _ hm _ hp).trans hle⟩

theorem Ranked.operandScope_le (h : c.Ranked roots W t) (hi : c.func.insts[i]? = some inst)
    (hf : t.isPinned i = false) (hx : t.instScope i = some x) :
    (t.inst i).isUsed = true ∧
      Scope.rank (c.operandScope t i inst.op (t.inst i).flags) ≤ Scope.rank (some x) := by
  have hu : (t.inst i).isUsed = true := by
    by_contra hn
    simp [Classification.instScope, ValueInfo.usedScope, hn] at hx
  have hs : (t.inst i).scope = some x := Classification.usedScope_eq_some hx
  exact ⟨hu, hs ▸ h.settled.inst i inst hi hu hf⟩

theorem Ranked.isPinned_eq_false (h : c.Ranked roots W t) (hi : ∀ x, ¬W i x) : t.isPinned i = false := by
  by_contra hp
  obtain ⟨x, -, hW⟩ := h.pinned i (by simpa using hp)
  exact hi x hW

theorem le_of_rank_le {y : Scope} (h : Scope.rank (some x) ≤ Scope.rank (some y)) : x ≤ y := by
  simpa [Scope.rank] using h

variable {owner : Scope}

theorem Ranked.operand_le (h : c.Ranked roots W t) (hi : c.func.insts[i]? = some inst)
    (hr : c.func.InstInRange c.program inst) (hf : t.isPinned i = false)
    (hd : ∀ callee args, inst.op ≠ .call (.indirect callee) args) (hv : v ∈ inst.op.operands)
    (hx : t.instScope i = some x) (how : t.valueScope v = some owner) :
    owner ≤ x := by
  have hle := (h.operandScope_le hi hf hx).2
  have ho := rank_valueScope_le (t := t) (i := i) hr hd hv (t.inst i).flags
  rw [how] at ho
  exact le_of_rank_le (ho.trans hle)

theorem Ranked.cond_le (h : c.Ranked roots W t)
    (hi : c.func.insts[i]? = some inst) (hop : inst.op = .phi incoming)
    (hf : t.isPinned i = false) (hq : q ∈ incoming.map Prod.fst) (hd : c.Decides b q)
    (hv : c.func.cond? b = some v) (hx : t.instScope i = some x) (ho : t.valueScope v = some owner) :
    owner ≤ x := by
  obtain ⟨hu, hle⟩ := h.operandScope_le hi hf hx
  obtain ⟨e, he, rfl⟩ := List.mem_map.mp hq
  obtain ⟨hb, hbl⟩ := h.decides (h.inflows.phi i inst incoming hi hop hu e he).isUsed hd
  have hc := h.settled.cond b hb v hv
  rw [ho] at hc
  rw [hop] at hle
  exact le_of_rank_le (hc.trans (hbl.trans ((rank_incoming_le he _).2.trans hle)))

theorem Ranked.load_le {addr : Address} {g : GlobalId} (h : c.Ranked roots W t)
    (hi : c.func.insts[i]? = some inst) (hop : inst.op = .load addr) (hg : addr.global? = some g)
    (hf : t.isPinned i = false) (hx : t.instScope i = some x)
    (ho : (t.global g).scope = some owner) : t.globalScope g = some owner ∧ owner ≤ x := by
  obtain ⟨hu, hle⟩ := h.operandScope_le hi hf hx
  have hgl : (t.global g).isUsed = true := (h.inflows.load i inst addr g hi hop hg hu).isUsed
  refine ⟨by simp [Classification.globalScope, ValueInfo.usedScope, hgl, ho], ?_⟩
  rw [hop] at hle
  simp only [operandScope, hg] at hle
  rw [ho] at hle
  exact le_of_rank_le (rank_le_latest.1.trans hle)

end Bounds

end Classifier

end Stagewise
