import Stagewise.Proofs.Classification.Dependence

namespace Stagewise

open Relation

namespace Classifier

variable {c : Classifier} {t t' : Classification} {w : Work} {work stack : List Work} {i : InstId}
  {n m : Node} {x : Scope} {rest : List Work}

theorem Passes.isEmpty {flags flags' : UsageFlags} (hl : c.strategy.Lively)
    (h : c.Passes n flags flags') (hf : flags.isEmpty = false) : flags'.isEmpty = false := by
  rcases h with rfl | ⟨_, _, _, _, site, -, -, -, rfl⟩
  · exact hf
  · exact hl site flags hf

theorem Visits.flags (hli : c.strategy.Lively) (h : c.Visits t w work t')
    (hf : w.flags.isEmpty = false) : ∀ w' ∈ work, w'.flags.isEmpty = false := by
  cases h with
  | known _ _ => simp
  | learn _ hl =>
    refine fun w' hw' => (hl.flags w' hw').isEmpty hli ?_
    rw [UsageFlags.isEmpty_union, hf, Bool.and_false]

theorem Visits.used_iff (h : c.Visits t w work t') (hfl : w.flags.isEmpty = false)
    (hp : ∀ i, t.isPinned i = true → (t.inst i).isUsed = true) (n : Node) :
    (t'.info n).isUsed = true ↔ (t.info n).isUsed = true ∨ n = w.node := by
  cases hf : t.fixes n with
  | false =>
    rw [h.isUsed_iff hf, eq_comm (a := n)]
    simp [hfl]
  | true =>
    have hu : (t.info n).isUsed = true := by
      cases n with
      | inst i => exact hp i hf
      | global _ | block _ | terminator _ => cases hf
    cases h with
    | known _ _ => simp [hu]
    | learn _ hl =>
      have hne : n ≠ w.node := fun heq => by
        rw [heq, hl.free] at hf
        cases hf
      simp [hl.info, hne]

def Reached (t : Classification) (stack : List Work) (n : Node) : Prop :=
  (t.info n).isUsed = true ∨ ∃ w ∈ stack, w.node = n

/-- Uses reach all that a used node leads to, up to what some work still does. -/
structure Flowing (c : Classifier) (t : Classification) (stack : List Work) : Prop where
  flags : ∀ w ∈ stack, w.flags.isEmpty = false
  pinned : ∀ i, t.isPinned i = true → (t.inst i).isUsed = true
  looked : ∀ i inst, c.func.insts[i]? = some inst → (t.inst i).isUsed = true →
    t.isPinned i = false → ∃ flags r, c.instWork i inst.op flags = .ok r
  leads : ∀ n, (t.info n).isUsed = true → t.fixes n = false → ∀ m ∈ c.leads n, Reached t stack m

theorem Flowing.push (h : c.Flowing t []) (hwo : ∀ w ∈ work, w.flags.isEmpty = false) :
    c.Flowing t work.reverse :=
  ⟨by simpa using hwo, h.pinned, h.looked, fun n hn hf m hm => (h.leads n hn hf m hm).elim .inl
    fun ⟨_, hw, _⟩ => absurd hw List.not_mem_nil⟩

theorem Visits.reached (h : c.Visits t w work t') (hf : c.Flowing t (w :: stack))
    (hn : Reached t (w :: stack) n) : Reached t' (work.reverse ++ stack) n := by
  have hu := h.used_iff (hf.flags w List.mem_cons_self) hf.pinned
  rcases hn with hn | ⟨w', hw', rfl⟩
  · exact .inl ((hu n).mpr (.inl hn))
  · rcases List.mem_cons.mp hw' with rfl | hw'
    · exact .inl ((hu _).mpr (.inr rfl))
    · exact .inr ⟨w', List.mem_append_right _ hw', rfl⟩

theorem Visits.fixes (h : c.Visits t w work t') (n : Node) : t'.fixes n = t.fixes n := by
  cases n with
  | inst i => exact h.isPinned i
  | global _ | block _ | terminator _ => rfl

theorem Visits.flowing (hli : c.strategy.Lively) (h : c.Visits t w work t')
    (hf : c.Flowing t (w :: stack)) : c.Flowing t' (work.reverse ++ stack) := by
  have hfl := hf.flags w List.mem_cons_self
  have hu := h.used_iff hfl hf.pinned
  -- a node that learned something was looked at, and what it leads to is asked for
  have hs : ∀ n, (t'.info n).isUsed = true → (t.info n).isUsed = true ∨
      n = w.node ∧ c.Learns t w work t' := by
    intro n hn
    cases h with
    | known _ _ => exact .inl hn
    | learn _ hl => exact ((hu n).mp hn).imp_right fun heq => ⟨heq, hl⟩
  refine ⟨fun w' hw' => ?_, fun i hi => ?_, fun i inst hin hi hp => ?_,
    fun n hn hfr m hm => ?_⟩
  · rcases List.mem_append.mp hw' with hw' | hw'
    · exact h.flags hli hfl w' (List.mem_reverse.mp hw')
    · exact hf.flags w' (List.mem_cons_of_mem _ hw')
  · rw [h.isPinned] at hi
    exact (hu (.inst i)).mpr (.inl (hf.pinned i hi))
  · rw [h.isPinned] at hp
    rcases hs (.inst i) hi with ho | ⟨heq, hl⟩
    · exact hf.looked i inst hin ho hp
    · exact ⟨_, hl.looked i inst heq.symm hin⟩
  · rw [h.fixes] at hfr
    rcases hs n hn with ho | ⟨rfl, hl⟩
    · exact h.reached hf (hf.leads n ho hfr m hm)
    · obtain ⟨w', hw', hno⟩ := hl.exists_work hm
      exact .inr ⟨w', List.mem_append_left _ (List.mem_reverse.mpr hw'), hno⟩

theorem Advances.flowing (hl : c.strategy.Lively) (h : c.Advances (stack, t) (rest, t'))
    (hf : c.Flowing t stack) : c.Flowing t' rest :=
  h.invariant (P := fun stack t => c.Flowing t stack) (fun _ _ _ _ _ hv hf => hv.flowing hl hf) hf

theorem Advances.reached (hl : c.strategy.Lively) (h : c.Advances (stack, t) (rest, t'))
    (hf : c.Flowing t stack) (hn : Reached t stack n) : Reached t' rest n := by
  have key : c.Flowing t' rest ∧ Reached t' rest n :=
    h.invariant (P := fun stack t => c.Flowing t stack ∧ Reached t stack n)
      (fun _ _ _ _ _ hv ht => ⟨hv.flowing hl ht.1, hv.reached ht.1 ht.2⟩) ⟨hf, hn⟩
  exact key.2

theorem Reached.isUsed (h : Reached t [] n) : (t.info n).isUsed = true := by
  rcases h with h | ⟨w, hw, -⟩
  · exact h
  · simp at hw

structure SameUses (t t' : Classification) : Prop where
  isUsed : ∀ n, (t'.info n).isUsed = (t.info n).isUsed
  pinned : t'.pinned = t.pinned

theorem SameUses.trans {t'' : Classification} (h : SameUses t t') (h' : SameUses t' t'') :
    SameUses t t'' :=
  ⟨fun n => (h'.isUsed n).trans (h.isUsed n), h'.pinned.trans h.pinned⟩

theorem SameUses.isPinned (h : SameUses t t') (i : InstId) : t'.isPinned i = t.isPinned i := by
  rw [Classification.isPinned, h.pinned, Classification.isPinned]

theorem SameUses.fixes (h : SameUses t t') (n : Node) : t'.fixes n = t.fixes n := by
  cases n with
  | inst i => exact h.isPinned i
  | global _ | block _ | terminator _ => rfl

theorem SameUses.flowing (h : SameUses t t') (hf : c.Flowing t []) : c.Flowing t' [] := by
  refine ⟨by simp, fun i hi => ?_, fun i inst hin hu hp => ?_, fun n hu hfr m hm => ?_⟩
  · exact (h.isUsed (.inst i)).trans (hf.pinned i ((h.isPinned i).symm.trans hi))
  · exact hf.looked i inst hin ((h.isUsed (.inst i)).symm.trans hu)
      ((h.isPinned i).symm.trans hp)
  · rw [h.isUsed] at hu
    rw [h.fixes] at hfr
    exact .inl ((h.isUsed m).trans (hf.leads n hu hfr m hm).isUsed)

theorem Raises.sameUses (h : Raises t t') : SameUses t t' :=
  ⟨fun n => (h.higher n).isUsed, h.pinned⟩

theorem sameUses_absorb (c : Classifier) (t : Classification) : SameUses t (c.absorb t) := by
  refine ⟨fun n => ?_, rfl⟩
  cases n with
  | inst i =>
    show ((c.absorb t).inst i).isUsed = (t.inst i).isUsed
    rw [inst_absorb, absorbInst]
    split
    · next hu =>
      split
      · simp only [ValueInfo.isUsed, Bool.not_eq_true'] at hu
        simp [ValueInfo.isUsed, UsageFlags.isEmpty_union, hu]
      · rfl
    · rfl
  | global _ | block _ | terminator _ => rfl

theorem sameUses_resolve (c : Classifier) (t : Classification) : SameUses t (c.resolve t).2 :=
  (sameUses_absorb c t).trans (raises_settle c _ _).sameUses

theorem fits_resolve (h : t.Fits c.program c.func) : (c.resolve t).2.Fits c.program c.func :=
  (raises_settle c _ _).fits (fits_absorb h)

section Bounds

variable {callee : FuncId} {args : List Value} {r : List Work × Option Problem} {op : Operation}
  {inst : Inst}

theorem exists_callRule {flags : UsageFlags} (hop : op = .call (.direct callee) args)
    (h : c.instWork i op flags = .ok r) (flags' : UsageFlags) :
    ∃ rule, c.callRule? i callee args flags' = some rule := by
  subst hop
  obtain ⟨rule, hr, -⟩ := bind_eq_ok h
  have hr := orDangling_eq_ok hr
  simp only [callRule?, Option.map_eq_some_iff] at hr
  obtain ⟨d, hd, -⟩ := hr
  exact ⟨_, by rw [callRule?, hd, Option.map_some]⟩

/-- The scope of the operands is no earlier than that of any of them that is used. -/
theorem rank_le_operandScope {flags flags' : UsageFlags} (hl : c.instWork i op flags' = .ok r)
    (hm : m ∈ op.dependencies) (hu : (t.info m).isUsed = true) :
    Scope.rank (t.info m).scope ≤ Scope.rank (c.operandScope t i op flags) := by
  have hva : ∀ {vs : List Value} (first : Option Scope), m ∈ vs.filterMap Value.node? →
      Scope.rank (t.info m).scope ≤ Scope.rank (Scope.latest first (vs.map t.valueScope)) := by
    intro vs first hm
    obtain ⟨v, hv, hn⟩ := List.mem_filterMap.mp hm
    rw [← Classification.valueScope_of_node hn hu]
    exact rank_le_latest.2 _ (List.mem_map_of_mem hv)
  unfold operandScope
  split
  · next addr =>
    cases hg : addr.global? with
    | none => simp [Operation.dependencies, hg] at hm
    | some g =>
      simp only [Operation.dependencies, hg] at hm
      rcases List.mem_cons.mp hm with rfl | hm
      · exact rank_le_latest.1
      · exact hva _ hm
  · next incoming =>
    obtain ⟨e, he, hm⟩ := List.mem_flatMap.mp hm
    refine le_trans ?_ (rank_le_latest.2 _ (List.mem_map_of_mem he))
    rw [Scope.rank_later]
    rcases List.mem_append.mp hm with hm | hm
    · rw [Classification.valueScope_of_node (Option.mem_toList.mp hm) hu]
      exact le_max_left _ _
    · obtain rfl := List.mem_singleton.mp hm
      exact le_max_right _ _
  · next callee args =>
    obtain ⟨rule, hr⟩ := exists_callRule rfl hl flags
    rw [hr]
    exact hva _ hm
  · simp [Operation.dependencies] at hm
  · next hlo hp hd hi =>
    refine hva none ?_
    unfold Operation.dependencies at hm
    split at hm
    · exact absurd rfl (hlo _)
    · exact absurd rfl (hp _)
    · exact absurd rfl (hi _ _)
    · exact hm

theorem Flowing.dependsOn (hf : c.Flowing t []) (hs : c.Settled t)
    (hu : (t.info n).isUsed = true) (hfr : t.fixes n = false) (h : c.DependsOn n m) :
    (t.info m).isUsed = true ∧ Scope.rank (t.info m).scope ≤ Scope.rank (t.info n).scope := by
  have hm := (hf.leads n hu hfr m (mem_leads_of_dependsOn h)).isUsed
  have hc : ∀ {b}, m ∈ ((c.func.cond? b).bind Value.node?).toList →
      ∃ v, c.func.cond? b = some v ∧ t.valueScope v = (t.info m).scope := by
    intro b hme
    obtain ⟨v, hv, hn⟩ := Option.bind_eq_some_iff.mp (Option.mem_toList.mp hme)
    exact ⟨v, hv, Classification.valueScope_of_node hn hm⟩
  refine ⟨hm, ?_⟩
  cases n with
  | inst i =>
    simp only [DependsOn, dependencies] at h
    cases hi : c.func.insts[i]? with
    | none => simp [hi] at h
    | some inst =>
      rw [hi] at h
      obtain ⟨flags, r, hl⟩ := hf.looked i inst hi hu hfr
      exact (rank_le_operandScope hl h hm).trans (hs.inst i inst hi hu hfr)
  | block b =>
    rcases List.mem_append.mp h with h | h
    · obtain ⟨v, hv, hsc⟩ := hc h
      exact hsc ▸ hs.cond b hu v hv
    · obtain ⟨q, hq, rfl⟩ := List.mem_map.mp h
      exact hs.parent b hu q hq
  | terminator b =>
    obtain ⟨v, hv, hsc⟩ := hc h
    exact hsc ▸ hs.terminator b hu v hv
  | global g => simp [DependsOn, dependencies] at h

theorem Flowing.floor_le (hf : c.Flowing t []) (hs : c.Settled t)
    (hi : c.func.insts[i]? = some inst) (hop : inst.op = .call (.direct callee) args)
    (hu : (t.inst i).isUsed = true) (hfr : t.isPinned i = false) :
    ∃ rule, c.callRule? i callee args (t.inst i).flags = some rule ∧
      Scope.rank rule.floor ≤ Scope.rank (t.inst i).scope := by
  obtain ⟨flags, r, hl⟩ := hf.looked i inst hi hu hfr
  obtain ⟨rule, hr⟩ := exists_callRule hop hl (t.inst i).flags
  refine ⟨rule, hr, le_trans ?_ (hs.inst i inst hi hu hfr)⟩
  rw [hop]
  simp only [operandScope, hr]
  exact rank_le_latest.1

theorem Flowing.call (hp : c.strategy = .plain) (hf : c.Flowing t []) (hs : c.Settled t)
    (hi : c.func.insts[i]? = some inst) (hop : inst.op = .call (.direct callee) args)
    (hu : (t.inst i).isUsed = true) (hfr : t.isPinned i = false) :
    Scope.rank (some (.ofNat 0)) ≤ Scope.rank (t.inst i).scope := by
  obtain ⟨rule, hr, hle⟩ := hf.floor_le hs hi hop hu hfr
  rwa [callRule?_plain hp hr] at hle

end Bounds

end Classifier

end Stagewise
