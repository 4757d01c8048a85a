import Stagewise.Proofs.Sketch.Drawing

namespace Stagewise

namespace Sketch

variable {k k' k'' : Sketch} {old old' : Nat → Prop}

def Edge (k : Sketch) (a t : BlockId) : Prop := ∃ e, k.ends a = some e ∧ t ∈ e.targets

/-- All new edges start at the current block or a new one, and lead to new blocks or to some old
ones. -/
structure Adds (k k' : Sketch) (old : Nat → Prop) : Prop where
  size_le : k.size ≤ k'.size
  edges : ∀ a t : Nat, k'.Edge a t → k.Edge a t ∨
    (a = k.current ∨ k.size ≤ a) ∧ (k.size ≤ t ∧ t < k'.size ∨ old t)

theorem adds_of_ends_eq (hs : k.size ≤ k'.size) (he : k'.ends = k.ends) : k.Adds k' old :=
  ⟨hs, fun a t h => .inl (by rwa [Edge, he] at h)⟩

theorem Adds.refl (k : Sketch) : k.Adds k old := adds_of_ends_eq (Nat.le_refl _) rfl

theorem Adds.trans (h : k.Adds k' old) (h' : k'.Adds k'' old')
    (hp : k'.current = k.current ∨ k.size ≤ k'.current)
    (ho : ∀ t : Nat, old' t → old t ∨ k.size ≤ t ∧ t < k'.size) : k.Adds k'' old := by
  have hs := h.size_le
  have hs' := h'.size_le
  refine ⟨by omega, fun a t ht => ?_⟩
  rcases h'.edges a t ht with ht | ⟨ha, ht⟩
  · rcases h.edges a t ht with ht | ⟨ha, ht | ht⟩
    · exact .inl ht
    · exact .inr ⟨ha, .inl ⟨ht.1, by omega⟩⟩
    · exact .inr ⟨ha, .inr ht⟩
  · right
    constructor
    · rcases ha with rfl | ha
      · exact hp
      · exact .inr (by omega)
    · rcases ht with ht | ht
      · exact .inl ⟨by omega, ht.2⟩
      · rcases ho t ht with ht | ht
        · exact .inr ht
        · exact .inl ⟨ht.1, by omega⟩

theorem Adds.moved (h : k.Adds k' old) {b : BlockId} : k.Adds { k' with current := b } old :=
  ⟨h.size_le, h.edges⟩

theorem adds_leaveArm (k : Sketch) (fork : Fork) :
    k.Adds (k.leaveArm fork) fun t => fork.join = some t := by
  refine ⟨by simp, fun a t ht => ?_⟩
  by_cases ha : a = k.current
  · subst ha
    unfold leaveArm finishIfOpen at ht
    split at ht
    · next join hj =>
      split at ht
      · exact .inl ht
      · split at ht
        · exact .inl ht
        · obtain ⟨e, he, ht⟩ := ht
          obtain rfl : Exit.jump join = e := by simpa [finish] using he
          obtain rfl : t = join := by simpa [Exit.targets] using ht
          exact .inr ⟨.inl rfl, .inr hj⟩
    · exact .inl ht
  · obtain ⟨e, he, ht⟩ := ht
    exact .inl ⟨e, by rwa [leaveArm_ends_ne _ _ ha] at he, ht⟩

theorem Adds.enterArm (h : k.Adds k' old) (fork : Fork) (arm : Arm) :
    k.Adds (k'.enterArm fork arm) old := h.moved

theorem Adds.closeFork (h : k.Adds k' old) (fork : Fork) : k.Adds (k'.closeFork fork) old := by
  unfold Sketch.closeFork
  split
  · exact h.moved
  · exact h

section Fork

variable {site : BranchSite} {fork : Fork} {k₁ kT kF : Sketch} {plan : Plan} {start : BlockId}

def JoinOf (k : Sketch) (join : Option BlockId) (t : Nat) : Prop :=
  ∃ j, join = some j ∧ k.joins j = some t

theorem Apt.not_joinOf {block j : BlockId} {stop : Option BlockId} {enclosed : Bool}
    {arm : BlockId → Itinerary} {rest : Itinerary} {t : Nat}
    (h : k.Apt plan block stop enclosed (.fork site arm rest)) (hw : plan.wants site = true)
    (hj : site.join = some j) (hs : rest.start = some j) : ¬k.JoinOf site.join t := by
  rintro ⟨i, hi, ht⟩
  obtain rfl := Option.mem_unique hj hi
  have hf := h.fresh j (by simp [Itinerary.rejoined, hw, hs])
  rw [ht] at hf
  cases hf

section

variable (h : k.Opened site fork k₁)
include h

theorem Opened.join_eq {b : Nat} (hb : fork.join = some b) :
    k.JoinOf site.join b ∨ k.size ≤ b ∧ b < k₁.size := by
  cases hj : site.join with
  | none => rw [h.join_none hj] at hb; cases hb
  | some j =>
    obtain ⟨c, hc, -, hlt, hjo⟩ := h.join_some j hj
    obtain rfl := Option.mem_unique hc hb
    rcases hjo with hjo | ⟨-, hle⟩
    · exact .inl ⟨j, rfl, hjo⟩
    · exact .inr ⟨hle, hlt⟩

theorem Opened.target {arm : Arm} (ha : ArmOpens k k₁ site fork start arm) :
    k.JoinOf site.join arm.target ∨ k.size ≤ arm.target ∧ arm.target < k₁.size := by
  cases ha with
  | fresh _ hle hlt _ => exact .inr ⟨hle, hlt⟩
  | atJoin _ hj => exact h.join_eq hj

theorem Opened.adds : k.Adds k₁ (k.JoinOf site.join) := by
  refine ⟨h.size_le, fun a t ht => ?_⟩
  obtain ⟨e, he, ht⟩ := ht
  rw [h.ends] at he
  by_cases ha : a = k.current
  · subst ha
    rw [Function.update_self] at he
    obtain rfl := Option.some.inj he
    have hta : k.JoinOf site.join t ∨ k.size ≤ t ∧ t < k₁.size := by
      simp only [Exit.targets, List.mem_cons, List.not_mem_nil, or_false] at ht
      rcases ht with rfl | rfl
      · exact h.target h.ifTrue
      · exact h.target h.ifFalse
    exact .inr ⟨.inl rfl, hta.symm⟩
  · rw [Function.update_of_ne ha] at he
    exact .inl ⟨e, he, ht⟩

theorem Opened.enterArm_place {arm : Arm} (ha : ArmOpens k k₁ site fork start arm) (k' : Sketch) :
    (k'.enterArm fork arm).current = k.current ∨ k.size ≤ (k'.enterArm fork arm).current := by
  cases ha with
  | fresh _ hle _ _ => exact .inr hle
  | atJoin _ _ => exact .inl h.branch

end

theorem Adds.arm {arm : Arm} (h : k.Adds k' (k.JoinOf site.join))
    (ho : k.Opened site fork k₁) (hle : k₁.size ≤ k'.size)
    (hj : ∀ t, k'.JoinOf site.join t → fork.join = some t)
    (ha : ArmOpens k k₁ site fork start arm)
    (har : (k'.enterArm fork arm).Adds kT (k'.JoinOf site.join))
    (hc : kT.current = (k'.enterArm fork arm).current ∨ k'.size ≤ kT.current ∨
      fork.join = some kT.current) :
    k.Adds (kT.leaveArm fork) (k.JoinOf site.join) := by
  have hol : ∀ t : Nat, fork.join = some t → k.JoinOf site.join t ∨ k.size ≤ t ∧ t < k'.size := by
    intro t ht
    refine (ho.join_eq ht).imp_right fun ht => ⟨ht.1, ?_⟩
    omega
  have hp := ho.enterArm_place ha k'
  have hT : k.Adds kT (k.JoinOf site.join) :=
    (h.enterArm fork arm).trans har hp fun t ht => hol t (hj t ht)
  have hs := h.size_le
  have hkT : k'.size ≤ kT.size := har.size_le
  have hl : k.size ≤ kT.current ∨ kT.current = k.current →
      k.Adds (kT.leaveArm fork) (k.JoinOf site.join) := by
    intro hc
    refine hT.trans (adds_leaveArm kT fork) hc.symm fun t ht => ?_
    refine (hol t ht).imp_right fun ht => ⟨ht.1, ?_⟩
    omega
  rcases hc with hc | hc | hc
  · rw [hc] at hl
    exact hl hp.symm
  · exact hl (.inl (by omega))
  · rw [leaveArm_of_current_eq kT fork hc rfl]
    exact hT

theorem Standing.join_eq (h : k.Standing site fork) {t : Nat} (ht : k.JoinOf site.join t) :
    fork.join = some t := by
  obtain ⟨j, hj, ht⟩ := ht
  obtain ⟨b, hb, hk, -⟩ := h.join_some j hj
  rw [hb, ← hk, ht]

theorem Standing.outcome_place (h : k.Standing site fork) {it : Itinerary} {arm : Arm}
    (ho : (k.enterArm fork arm).Outcome plan kT site.join false it) :
    kT.current = (k.enterArm fork arm).current ∨ k.size ≤ kT.current ∨
      fork.join = some kT.current := by
  rcases ho.place with hc | hc | ⟨-, j, hj, hc⟩
  · exact .inl hc
  · exact .inr (.inl hc)
  · exact .inr (.inr (h.join_eq ⟨j, hj, hc⟩))

theorem Forked.adds {T F : Itinerary} (h : Forked plan k site T F fork k₁ kT kF)
    (hT : (k₁.enterArm fork fork.ifTrue).Adds kT (k₁.JoinOf site.join))
    (hF : ((kT.leaveArm fork).enterArm fork fork.ifFalse).Adds kF
      ((kT.leaveArm fork).JoinOf site.join)) :
    k.Adds ((kF.leaveArm fork).closeFork fork) (k.JoinOf site.join) := by
  have hs := h.place.standing h.opened
  have hf := h.place.firstArm h.opened h.first
  have ha : k.Adds (kT.leaveArm fork) (k.JoinOf site.join) :=
    h.opened.adds.arm h.opened (Nat.le_refl _) (fun _ => hs.join_eq) h.opened.ifTrue hT
      (hs.outcome_place h.first)
  exact (ha.arm h.opened hf.size_le (fun _ => hf.standing.join_eq) h.opened.ifFalse hF
    (hf.standing.outcome_place h.second)).closeFork fork

end Fork

theorem Adds.of_append {ms : List Mark} (h : (k.append ms).Adds k' old) : k.Adds k' old :=
  ⟨h.size_le, h.edges⟩

theorem Adds.mono (h : k.Adds k' old) (ho : ∀ t, old t → old' t) : k.Adds k' old' :=
  ⟨h.size_le, fun a t ht => (h.edges a t ht).imp_right fun h => ⟨h.1, h.2.imp_right (ho t)⟩⟩

variable {r : Route} {plan : Plan} {quiet : BlockId → Prop} {block : BlockId}
  {stop : Option BlockId} {enclosed faithful : Bool} {it : Itinerary} {pred : Option BlockId}

theorem Flattened.adds {site : BranchSite} {T F : Itinerary} {kT kF : Sketch}
    (h : Flattened plan quiet k site T F kT kF)
    (hT : k.Adds kT fun t => true = false ∧ k.JoinOf site.join t)
    (hF : kT.Adds kF fun t => true = false ∧ kT.JoinOf site.join t) : k.Adds kF fun _ => False := by
  have hn : ∀ {P : Prop}, true = false ∧ P → False := fun h => Bool.noConfusion h.1
  refine (hT.mono fun _ => hn).trans hF ?_ fun _ ht => (hn ht).elim
  rcases h.first.place with hp | hp | hp
  · exact .inl hp
  · exact .inr hp
  · exact (hn hp).elim

/-- New edges lead to new blocks or to the block where the arms come together. -/
theorem Drawn.adds (h : Drawn r plan quiet block stop enclosed faithful it pred k k')
    (hn : it.entered.Nodup) : k.Adds k' fun t => enclosed = false ∧ k.JoinOf stop t := by
  induction h with
  | @join block enclosed faithful pred k _ =>
    cases pred with
    | none => exact .refl k
    | some q => exact adds_of_ends_eq (Nat.le_refl _) rfl
  | @ret block enclosed faithful pred k _ _ hap _ =>
    refine @Adds.of_append k _ _ (plan.marks k.exits pred block) ?_
    cases faithful with
    | false => exact .refl _
    | true =>
      refine ⟨?_, fun a t ht => .inl ?_⟩
      · rw [if_pos rfl, finishIfOpen]
        split <;> exact Nat.le_refl _
      · rw [if_pos rfl, finishIfOpen] at ht
        split at ht
        · exact ht
        · obtain ⟨e, he, ht⟩ := ht
          by_cases ha : a = (k.append (plan.marks k.exits pred block)).current
          · subst ha
            obtain rfl : Exit.ret = e := by simpa [finish] using he
            simp [Exit.targets] at ht
          · exact ⟨e, (Function.update_of_ne ha _ _).symm.trans he, ht⟩
  | jump _ _ _ _ ih => exact (ih (List.nodup_cons.mp hn).2).of_append
  | @fork stop enclosed faithful site arm rest pred k fork k₁ kT kF k' _ hsh hap hf _ _ haf
      _ ihT ihF ihR =>
    obtain ⟨-, hnd, hndF, hndR, -⟩ := nodup_fork hn
    have ha' := hap.append (plan.marks k.exits pred site.block)
    refine @Adds.of_append k _ _ (plan.marks k.exits pred site.block) ?_
    have had := hf.adds ((ihT hnd).mono fun _ h => h.2) ((ihF hndF).mono fun _ h => h.2)
    rcases haf with ⟨hjs, rfl, rfl⟩ | ⟨j, hj, hjs, hst, -⟩
    · exact had.mono fun t ht => ⟨hsh hjs, hjs ▸ ht⟩
    · have hne := hf.closed.current_new ha' hf.wants hj hst
      refine (had.mono fun t ht => (ha'.not_joinOf hf.wants hj hst ht).elim).trans
        (ihR j hj hjs hndR) (.inr hne) fun t ht => .inl ?_
      obtain ⟨hen, s, hs, ht⟩ := ht
      have ho := ha'.stop_not_mem hen hs
      simp only [Itinerary.rejoined, List.mem_append, not_or] at ho
      have hsa := hf.closed.joins s (by rw [hj, ← hs]; exact hjs.symm) ho.1.1 ho.1.2
      exact ⟨hen, s, hs, hsa.symm.trans ht⟩
  | @flat stop enclosed faithful site arm rest pred k kT kF k' _ hap hfl _ _ haf _ ihT ihF ihR =>
    obtain ⟨-, hnd, hndF, hndR, -⟩ := nodup_fork hn
    have ha' := hap.append (plan.marks k.exits pred site.block)
    refine @Adds.of_append k _ _ (plan.marks k.exits pred site.block) ?_
    have had := hfl.adds (ihT hnd) (ihF hndF)
    rcases haf with ⟨-, rfl, rfl⟩ | ⟨j, hj, hjs, -, -⟩
    · exact had.mono fun _ h => h.elim
    · refine (had.mono fun _ h => h.elim).trans (ihR j hj hjs hndR) hfl.passed.place
        fun t ht => .inl ?_
      obtain ⟨hen, s, hs, ht⟩ := ht
      have ho := ha'.stop_not_mem hen hs
      simp only [Itinerary.rejoined, List.mem_append, not_or] at ho
      exact ⟨hen, s, hs, (hfl.passed.joins s ho.1.1 ho.1.2).symm.trans ht⟩

end Sketch

end Stagewise
