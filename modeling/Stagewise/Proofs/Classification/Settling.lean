import Stagewise.Proofs.Classification.Placement

namespace Stagewise

namespace ValueInfo

def Higher (x y : ValueInfo) : Prop := y.flags = x.flags ∧ Scope.rank x.scope ≤ Scope.rank y.scope

theorem Higher.refl (x : ValueInfo) : x.Higher x := ⟨rfl, le_refl _⟩

theorem Higher.trans {x y z : ValueInfo} (h : x.Higher y) (h' : y.Higher z) : x.Higher z :=
  ⟨h'.1.trans h.1, h.2.trans h'.2⟩

theorem Higher.isUsed {x y : ValueInfo} (h : x.Higher y) : y.isUsed = x.isUsed := by
  rw [ValueInfo.isUsed, h.1, ValueInfo.isUsed]

def ranks (infos : List ValueInfo) : Nat := (infos.map fun x => Scope.rank x.scope).sum

theorem ranks_cons (x : ValueInfo) (infos : List ValueInfo) :
    ranks (x :: infos) = Scope.rank x.scope + ranks infos := rfl

theorem ranks_le (infos : List ValueInfo) : ranks infos ≤ 256 * infos.length := by
  induction infos with
  | nil => exact Nat.zero_le _
  | cons x infos ih =>
    have := Scope.rank_le x.scope
    rw [ranks_cons, List.length_cons]
    omega

section Rows

variable {xs ys : List ValueInfo}

theorem ranks_le_of_higher (h : List.Forall₂ Higher xs ys) : ranks xs ≤ ranks ys := by
  induction h with
  | nil => exact le_refl _
  | cons hx _ ih => exact Nat.add_le_add hx.2 ih

theorem eq_of_ranks_le (h : List.Forall₂ Higher xs ys) (hle : ranks ys ≤ ranks xs) : ys = xs := by
  induction h with
  | nil => rfl
  | @cons x y xs ys hx hxs ih =>
    have hr := ranks_le_of_higher hxs
    have hf := hx.2
    rw [ranks_cons, ranks_cons] at hle
    have hs : y.scope = x.scope := Scope.rank_injective (by omega)
    obtain rfl : y = x := by
      obtain ⟨_, _⟩ := x
      obtain ⟨_, _⟩ := y
      exact congrArg₂ ValueInfo.mk hs hx.1
    rw [ih (by omega)]

theorem higher_set {i : Nat} {y : ValueInfo} (h : (xs[i]?.getD .unknown).Higher y) :
    List.Forall₂ Higher xs (xs.set i y) := by
  induction xs generalizing i with
  | nil => exact .nil
  | cons x xs ih =>
    cases i with
    | zero => exact .cons h (List.forall₂_same.mpr fun x _ => .refl x)
    | succ i => exact .cons (.refl x) (ih h)

theorem higher_getD (h : List.Forall₂ Higher xs ys) (i : Nat) :
    (xs[i]?.getD .unknown).Higher (ys[i]?.getD .unknown) := by
  induction h generalizing i with
  | nil => exact .refl _
  | cons hx _ ih =>
    cases i with
    | zero => exact hx
    | succ i => exact ih i

theorem forall₂_higher_trans {zs : List ValueInfo} (h : List.Forall₂ Higher xs ys)
    (h' : List.Forall₂ Higher ys zs) : List.Forall₂ Higher xs zs := by
  induction h generalizing zs with
  | nil => exact h'
  | cons hx _ ih =>
    cases h' with
    | cons hy hys => exact .cons (hx.trans hy) (ih hys)

end Rows

end ValueInfo

open ValueInfo

namespace Classifier

variable {c : Classifier} {t t' : Classification} {i : InstId} {b : BlockId}
  {step : Classification → BlockId → Classification}

/-- A table with the same uses, and with placements that are not earlier. -/
structure Raises (t t' : Classification) : Prop where
  insts : List.Forall₂ Higher t.insts.toList t'.insts.toList
  globals : t'.globals = t.globals
  blocks : List.Forall₂ Higher t.blocks.toList t'.blocks.toList
  terminators : List.Forall₂ Higher t.terminators.toList t'.terminators.toList
  forced : t'.forced = t.forced
  guards : t'.guards = t.guards
  pinned : t'.pinned = t.pinned
  fixed : ∀ i, t.isPinned i = true → t'.inst i = t.inst i

theorem forall₂_higher_refl (xs : List ValueInfo) : List.Forall₂ Higher xs xs :=
  List.forall₂_same.mpr fun x _ => .refl x

theorem Raises.refl (t : Classification) : Raises t t :=
  ⟨forall₂_higher_refl _, rfl, forall₂_higher_refl _, forall₂_higher_refl _, rfl, rfl, rfl,
    fun _ _ => rfl⟩

section

variable (h : Raises t t')
include h

theorem Raises.isPinned (i : InstId) : t'.isPinned i = t.isPinned i := by
  rw [Classification.isPinned, h.pinned, Classification.isPinned]

theorem Raises.trans {t'' : Classification} (h' : Raises t' t'') : Raises t t'' :=
  ⟨forall₂_higher_trans h.insts h'.insts, h'.globals.trans h.globals,
    forall₂_higher_trans h.blocks h'.blocks, forall₂_higher_trans h.terminators h'.terminators,
    h'.forced.trans h.forced, h'.guards.trans h.guards, h'.pinned.trans h.pinned,
    fun i hi => (h'.fixed i ((h.isPinned i).trans hi)).trans (h.fixed i hi)⟩

theorem Raises.inst (i : InstId) : (t.inst i).Higher (t'.inst i) := by
  simpa [Classification.inst] using higher_getD h.insts i

theorem Raises.block (b : BlockId) : (t.block b).Higher (t'.block b) := by
  simpa [Classification.block] using higher_getD h.blocks b

theorem Raises.terminator (b : BlockId) : (t.terminator b).Higher (t'.terminator b) := by
  simpa [Classification.terminator] using higher_getD h.terminators b

theorem Raises.global (g : GlobalId) : t'.global g = t.global g := by
  rw [Classification.global, h.globals, Classification.global]

theorem Raises.higher (n : Node) : (t.info n).Higher (t'.info n) := by
  cases n with
  | inst i => exact h.inst i
  | global g =>
    show (t.global g).Higher (t'.global g)
    rw [h.global]
    exact .refl _
  | block b => exact h.block b
  | terminator b => exact h.terminator b

theorem Raises.fits (hf : t.Fits c.program c.func) : t'.Fits c.program c.func := by
  have hs : ∀ {xs ys : Array ValueInfo}, List.Forall₂ Higher xs.toList ys.toList →
      ys.size = xs.size := fun h => by simpa using h.length_eq.symm
  exact ⟨(hs h.insts).trans hf.insts, h.globals ▸ hf.globals,
    (hs h.blocks).trans hf.blocks, (hs h.terminators).trans hf.terminators,
    h.forced ▸ hf.forced, h.guards ▸ hf.guards, h.pinned ▸ hf.pinned⟩

end

theorem weight_eq (t : Classification) :
    weight t = ranks t.insts.toList + ranks t.blocks.toList + ranks t.terminators.toList := by
  have hs : ∀ infos : Array ValueInfo, rankSum infos = ranks infos.toList := by
    intro infos
    rw [rankSum, ← Array.foldl_toList, ranks, ← List.foldl_map, List.sum_eq_foldl]
  rw [weight, hs, hs, hs]

theorem Raises.weight_le (h : Raises t t') : weight t ≤ weight t' := by
  rw [weight_eq, weight_eq]
  exact Nat.add_le_add (Nat.add_le_add (ranks_le_of_higher h.insts) (ranks_le_of_higher h.blocks))
    (ranks_le_of_higher h.terminators)

theorem Raises.eq_of_weight_le (h : Raises t t') (hle : weight t' ≤ weight t) : t' = t := by
  rw [weight_eq, weight_eq] at hle
  have hi := ranks_le_of_higher h.insts
  have hb := ranks_le_of_higher h.blocks
  have ht := ranks_le_of_higher h.terminators
  have einsts := Array.toList_inj.mp (eq_of_ranks_le h.insts (by omega))
  have eblocks := Array.toList_inj.mp (eq_of_ranks_le h.blocks (by omega))
  have eterms := Array.toList_inj.mp (eq_of_ranks_le h.terminators (by omega))
  obtain ⟨_, _, _, _, _, _, _⟩ := t
  obtain ⟨_, _, _, _, _, _, _⟩ := t'
  exact (Classification.mk.injEq ..).mpr
    ⟨einsts, h.globals, eblocks, eterms, h.forced, h.guards, h.pinned⟩

theorem weight_le_raises (hf : t.Fits c.program c.func) : weight t ≤ c.raises := by
  have hi := ranks_le t.insts.toList
  have hb := ranks_le t.blocks.toList
  have ht := ranks_le t.terminators.toList
  rw [Array.length_toList, hf.insts] at hi
  rw [Array.length_toList, hf.blocks] at hb
  rw [Array.length_toList, hf.terminators] at ht
  rw [weight_eq, raises]
  omega

theorem Lifts.raises {m : Node} {y : Option Scope} (h : c.Lifts t m y) : Raises t (put t m y) := by
  have hh : (t.info m).Higher { t.info m with scope := y } := ⟨rfl, h.rank_le⟩
  have hs : ∀ {infos : Array ValueInfo} {k : Nat} {x : ValueInfo},
      (infos[k]?.getD .unknown).Higher x →
      List.Forall₂ Higher infos.toList (infos.setIfInBounds k x).toList := by
    intro infos k x hx
    rw [Array.toList_setIfInBounds]
    exact higher_set (by rwa [Array.getElem?_toList])
  have hf : ∀ i, t.isPinned i = true → (put t m y).inst i = t.inst i := by
    intro i hi
    refine (h.info (.inst i)).trans (if_neg ?_)
    rintro rfl
    exact absurd (hi.symm.trans h.free) (by simp)
  cases m with
  | inst i =>
    exact ⟨hs hh, rfl, forall₂_higher_refl _, forall₂_higher_refl _, rfl, rfl, rfl, hf⟩
  | global g => exact absurd rfl (h.inner g)
  | block b =>
    exact ⟨forall₂_higher_refl _, rfl, hs hh, forall₂_higher_refl _, rfl, rfl, rfl, hf⟩
  | terminator b =>
    exact ⟨forall₂_higher_refl _, rfl, forall₂_higher_refl _, hs hh, rfl, rfl, rfl, hf⟩

theorem raises_step (t0 t : Classification) (m : Node) (y : Option Scope) (hl : c.Lifts t m y)
    (h : Raises t0 t) : Raises t0 (put t m y) := h.trans hl.raises

theorem raises_resolveBlock (c : Classifier) (t : Classification) (b : BlockId) :
    Raises t (c.resolveBlock t b) := resolveBlock_invariant (raises_step t) t b (.refl t)

theorem raises_resolveTerminator (c : Classifier) (t : Classification) (b : BlockId) :
    Raises t (c.resolveTerminator t b) := resolveTerminator_invariant (raises_step t) t b (.refl t)

theorem raises_resolveInst (h : c.resolveInst t i = .ok t') : Raises t t' :=
  resolveInst_invariant (raises_step t) (.refl t) h

theorem raises_foldl (hs : ∀ t b, Raises t (step t b)) (bs : List BlockId) (t : Classification) :
    Raises t (bs.foldl step t) :=
  foldl_invariant (P := Raises t) (fun t b h => h.trans (hs t b)) bs (.refl t)

theorem raises_resolveInsts (is : List InstId) (t : Classification) :
    Raises t (c.resolveInsts is t).2 := resolveInsts_invariant (raises_step t) is (.refl t)

theorem raises_resolveRound (c : Classifier) (t : Classification) :
    Raises t (c.resolveRound t).2 := resolveRound_invariant (raises_step t) (.refl t)

theorem raises_settle (c : Classifier) (fuel : Nat) (t : Classification) :
    Raises t (c.settle fuel t).2 := settle_invariant (raises_step t) fuel (.refl t)

theorem resolveRound_settle {fuel : Nat} (hf : t.Fits c.program c.func)
    (hfu : c.raises < weight t + fuel) (h : c.settle fuel t = (.ok (), t')) :
    c.resolveRound t' = (.ok (), t') := by
  induction fuel generalizing t with
  | zero =>
    have := weight_le_raises hf
    omega
  | succ fuel ih =>
    have hro := raises_resolveRound c t
    unfold settle at h
    rcases hr : c.resolveRound t with ⟨_ | _, next⟩ <;> rw [hr] at h hro
    · simp at h
    · simp only at h hro
      split at h
      · next hs =>
        obtain ⟨-, rfl⟩ := Prod.mk.inj h
        obtain rfl := hro.eq_of_weight_le (le_of_eq (beq_iff_eq.mp hs))
        exact hr
      · next hm =>
        have hle := hro.weight_le
        rw [beq_iff_eq] at hm
        exact ih (hro.fits hf) (by omega) h

theorem foldl_fixed (hs : ∀ t b, Raises t (step t b)) {bs : List BlockId}
    (h : weight (bs.foldl step t) ≤ weight t) : ∀ b ∈ bs, step t b = t := by
  induction bs with
  | nil => simp
  | cons b bs ih =>
    rw [List.foldl_cons] at h
    have hf : step t b = t :=
      (hs t b).eq_of_weight_le ((raises_foldl hs bs _).weight_le.trans h)
    rw [hf] at h
    intro b' hb'
    rcases List.mem_cons.mp hb' with rfl | hb'
    · exact hf
    · exact ih h b' hb'

theorem resolveInsts_fixed {is : List InstId} (h : c.resolveInsts is t = (.ok (), t)) :
    ∀ i ∈ is, c.resolveInst t i = .ok t := by
  induction is with
  | nil => simp
  | cons i is ih =>
    unfold resolveInsts at h
    cases hi : c.resolveInst t i with
    | error e => simp [hi] at h
    | ok t1 =>
      simp only [hi] at h
      have hr := raises_resolveInsts (c := c) is t1
      rw [h] at hr
      obtain rfl := (raises_resolveInst hi).eq_of_weight_le hr.weight_le
      intro j hj
      rcases List.mem_cons.mp hj with rfl | hj
      · exact hi
      · exact ih h j hj

/-- Every used node is placed where its operands, and the branches that decide about it, put it. -/
structure Settled (c : Classifier) (t : Classification) : Prop where
  cond : ∀ b, (t.block b).isUsed = true → ∀ v, c.func.cond? b = some v →
    Scope.rank (t.valueScope v) ≤ Scope.rank (t.block b).scope
  parent : ∀ b, (t.block b).isUsed = true → ∀ q ∈ c.parents b,
    Scope.rank (t.block q).scope ≤ Scope.rank (t.block b).scope
  terminator : ∀ b, (t.terminator b).isUsed = true → ∀ v, c.func.cond? b = some v →
    Scope.rank (t.valueScope v) ≤ Scope.rank (t.terminator b).scope
  inst : ∀ i inst, c.func.insts[i]? = some inst → (t.inst i).isUsed = true → t.isPinned i = false →
    Scope.rank (c.operandScope t i inst.op (t.inst i).flags) ≤ Scope.rank (t.inst i).scope
  placed : ∀ i inst, c.func.insts[i]? = some inst → (t.inst i).isUsed = true → t.isPinned i = false →
    c.strategy.placeValue (t.inst i) (c.operandScope t i inst.op (t.inst i).flags)
      = (t.inst i).scope

theorem block_of_resolveBlock (h : c.resolveBlock t b = t) (hu : (t.block b).isUsed = true) :
    (t.block b).scope = Scope.latest
      (Scope.later (t.block b).scope ((c.func.cond? b).elim none t.valueScope))
      ((c.parents b).map fun q => (t.block q).scope) := by
  have hb := congrArg (fun t => (t.block b).scope) h
  simp only [resolveBlock, hu, if_true, Classification.block_setBlock, true_and,
    lt_of_isUsed hu] at hb
  exact hb.symm

theorem terminator_of_resolveTerminator {v : Value} (h : c.resolveTerminator t b = t)
    (hu : (t.terminator b).isUsed = true) (hv : c.func.cond? b = some v) :
    (t.terminator b).scope = Scope.later (t.terminator b).scope (t.valueScope v) := by
  have hb := congrArg (fun t => (t.terminator b).scope) h
  simp only [resolveTerminator, hu, hv, if_true, Classification.terminator_setTerminator, true_and,
    lt_of_isUsed hu] at hb
  exact hb.symm

theorem inst_of_resolveInst {inst : Inst} (h : c.resolveInst t i = .ok t)
    (hin : c.func.insts[i]? = some inst) (hu : (t.inst i).isUsed = true)
    (hp : t.isPinned i = false) :
    Scope.rank (c.operandScope t i inst.op (t.inst i).flags) ≤ Scope.rank (t.inst i).scope ∧
      c.strategy.placeValue (t.inst i) (c.operandScope t i inst.op (t.inst i).flags)
        = (t.inst i).scope := by
  simp only [resolveInst, hin, hu, hp, Bool.not_false, Bool.and_self, if_true] at h
  split at h
  · exact absurd h (by simp)
  · next hk =>
    simp only [Bool.or_eq_true, decide_eq_true_eq, not_or, not_lt] at hk
    have hi := congrArg (fun t => (t.inst i).scope) (Except.ok.inj h)
    simp only [Classification.inst_setInst, true_and, lt_of_isUsed hu, if_true] at hi
    exact ⟨hi ▸ hk.2, hi⟩

/-- A table that a round does not change is settled. -/
theorem settled_of_resolveRound (hf : t.Fits c.program c.func)
    (h : c.resolveRound t = (.ok (), t)) : c.Settled t := by
  have hb := raises_foldl (raises_resolveBlock c) c.func.blockIds t
  have ht := raises_foldl (raises_resolveTerminator c) c.func.blockIds
    (c.func.blockIds.foldl c.resolveBlock t)
  have hin := raises_resolveInsts (c := c) c.func.instIds
    (c.func.blockIds.foldl c.resolveTerminator (c.func.blockIds.foldl c.resolveBlock t))
  have he : (c.resolveInsts c.func.instIds (c.func.blockIds.foldl c.resolveTerminator
      (c.func.blockIds.foldl c.resolveBlock t))) = (.ok (), t) := h
  rw [he] at hin
  -- every table on the way lies between `t` and `t`
  have hle := ht.weight_le.trans hin.weight_le
  have hfi := hb.eq_of_weight_le hle
  have hse := (hb.trans ht).eq_of_weight_le hin.weight_le
  have hbl := foldl_fixed (raises_resolveBlock c) hle
  have hins := resolveInsts_fixed (hse ▸ he)
  have hte := foldl_fixed (raises_resolveTerminator c)
    (show weight (c.func.blockIds.foldl c.resolveTerminator t) ≤ weight t by
      rw [hfi] at hse
      rw [hse])
  have hmem : ∀ b, (t.block b).isUsed = true → b ∈ c.func.blockIds := fun b hu =>
    List.mem_range.mpr ((hf.has_iff (.block b)).mp (Classification.has_of_isUsed hu))
  have hme : ∀ b, (t.terminator b).isUsed = true → b ∈ c.func.blockIds := fun b hu =>
    List.mem_range.mpr ((hf.has_iff (.terminator b)).mp (Classification.has_of_isUsed hu))
  have hm : ∀ i, (t.inst i).isUsed = true → i ∈ c.func.instIds := fun i hu =>
    List.mem_range.mpr ((hf.has_iff (.inst i)).mp (Classification.has_of_isUsed hu))
  refine ⟨fun b hu v hv => ?_, fun b hu q hq => ?_, fun b hu v hv => ?_,
    fun i inst hi hu hp => ?_, fun i inst hi hu hp => ?_⟩
  · have hs := block_of_resolveBlock (hbl b (hmem b hu)) hu
    have hla := Scope.rank_later (t.block b).scope (t.valueScope v)
    rw [hv] at hs
    have hl := (@rank_le_latest (Scope.later (t.block b).scope (t.valueScope v))
      ((c.parents b).map fun q => (t.block q).scope)).1
    rw [show Scope.latest (Scope.later (t.block b).scope (t.valueScope v))
      ((c.parents b).map fun q => (t.block q).scope) = (t.block b).scope from hs.symm] at hl
    omega
  · have hs := block_of_resolveBlock (hbl b (hmem b hu)) hu
    have hl := (@rank_le_latest (Scope.later (t.block b).scope
      ((c.func.cond? b).elim none t.valueScope)) ((c.parents b).map fun q => (t.block q).scope)).2
    rw [← hs] at hl
    exact hl _ (List.mem_map_of_mem hq)
  · have hs := terminator_of_resolveTerminator (hte b (hme b hu)) hu hv
    have hla := Scope.rank_later (t.terminator b).scope (t.valueScope v)
    rw [← hs] at hla
    omega
  · exact (inst_of_resolveInst (hins i (hm i hu)) hi hu hp).1
  · exact (inst_of_resolveInst (hins i (hm i hu)) hi hu hp).2

theorem settled_resolve (hf : t.Fits c.program c.func) (h : (c.resolve t).1 = .ok ()) :
    c.Settled (c.resolve t).2 := by
  have hf' := fits_absorb hf
  have hru : c.settle (c.raises + 1) (c.absorb t) = (.ok (), (c.resolve t).2) :=
    Prod.ext h rfl
  have hr := raises_settle c (c.raises + 1) (c.absorb t)
  exact settled_of_resolveRound (hr.fits hf') (resolveRound_settle hf' (by omega) hru)

end Classifier

end Stagewise
