import Stagewise.Kind.Shader
import Stagewise.Proofs.Act
import Stagewise.Proofs.Function.Insertion

namespace Stagewise

namespace Shader

variable {p : Program} {types : TypePool} {f out : Function} {target : FuncId} {i m : Nat}

/-- The arguments of a call of the declared function `sample` that has a coordinate. -/
def sampleAt? (p : Program) (f : Function) (i : InstId) : Option (List Value) :=
  (p.declNamed? sample).bind fun target => f.insts[i]?.bind fun inst => sampleArgs? target inst.op

def samples (p : Program) (f : Function) : List InstId :=
  f.instIds.filter fun i => (sampleAt? p f i).isSome

def secondLane : Value := .const (.int TypeId.int 1)

/-- The flip of a coordinate, put before a sample: the second lane of the coordinate, one less that,
and the coordinate with the difference in its second lane. -/
def flipOps (types : TypePool) (coord : Value) (ty : TypeId) (v : InstId) :
    List (TypeId × Operation) :=
  let elem := (types.element ty).getD TypeId.float
  [(elem, .extract coord secondLane),
    (elem, .binary .sub (.const (.float elem Binary64.one)) (.inst v)),
    (ty, .insert coord (.inst (v + 1)) secondLane)]

variable {args : List Value}

theorem sampleArgs?_eq_some {op : Operation}
    (h : sampleArgs? target op = some args) :
    op = .call (.direct target) args ∧ ∃ coord, args[1]? = some coord := by
  unfold sampleArgs? at h
  split at h
  · split at h
    · next hc =>
      obtain rfl := Option.some.inj h
      rw [Bool.and_eq_true, decide_eq_true_eq, decide_eq_true_eq] at hc
      exact ⟨by rw [hc.1], _, List.getElem?_eq_getElem hc.2⟩
    · cases h
  · cases h

theorem sampleAt?_eq_some (h : sampleAt? p f i = some args) :
    ∃ target inst coord, p.declNamed? sample = some target ∧ f.insts[i]? = some inst ∧
      inst.op = .call (.direct target) args ∧ args[1]? = some coord := by
  obtain ⟨target, ht, h⟩ := Option.bind_eq_some_iff.mp h
  obtain ⟨inst, hi, h⟩ := Option.bind_eq_some_iff.mp h
  obtain ⟨hop, coord, hc⟩ := sampleArgs?_eq_some h
  exact ⟨target, inst, coord, ht, hi, hop, hc⟩

section Step

variable {args : List Value} {coord : Value} {ty : TypeId}

section

variable (ht : p.declNamed? sample = some target)
include ht

theorem flipCoordinate_of_none (h : sampleAt? p f i = none) :
    flipCoordinate p types f target out i = .ok out := by
  simp only [sampleAt?, ht, Option.bind_some] at h
  simp [flipCoordinate, h]

theorem flipCoordinate_of_some (h : sampleAt? p f i = some args) (hc : args[1]? = some coord)
    (hty : p.valueType? f coord = some ty) :
    flipCoordinate p types f target out i
      = .ok ((out.insertAllBefore i (flipOps types coord ty out.numInsts)).setOp i
          (.call (.direct target) (args.set 1 (.inst (out.numInsts + 2))))) := by
  simp only [sampleAt?, ht, Option.bind_some] at h
  have hn : ∀ (g : Function) (ty : TypeId) (op : Operation),
      (g.insertBefore i ty op).2.numInsts = g.numInsts + 1 := fun g ty op => g.insertAt_numInsts ..
  have hf : ∀ (g : Function) (ty : TypeId) (op : Operation),
      (g.insertBefore i ty op).1 = g.numInsts := fun g ty op => rfl
  simp only [flipCoordinate, h, hc, hty, orDangling, ok_bind, hf, hn]
  rfl

theorem flipCoordinate_of_lost (h : sampleAt? p f i = some args) (hc : args[1]? = some coord)
    (hty : p.valueType? f coord = none) :
    flipCoordinate p types f target out i = .error .dangling := by
  simp only [sampleAt?, ht, Option.bind_some] at h
  simp only [flipCoordinate, h, hc, hty, orDangling, ok_bind, error_bind]

end

end Step

def samplesBelow (p : Program) (f : Function) (m : Nat) : Nat :=
  ((List.range m).filter fun i => (sampleAt? p f i).isSome).length

def flipStart (p : Program) (f : Function) (i : InstId) : InstId :=
  f.numInsts + 3 * samplesBelow p f i

/-- What stands in the place of an instruction once all samples below `m` are flipped. -/
def flipGroup (p : Program) (f : Function) (m : Nat) (i : InstId) : List InstId :=
  if i < m ∧ (sampleAt? p f i).isSome then List.range' (flipStart p f i) 3 ++ [i] else [i]

/-- A function of which all samples below `m` are flipped. -/
structure FlippedBelow (p : Program) (types : TypePool) (f : Function) (m : Nat)
    (out : Function) : Prop where
  name : out.name = f.name
  entry : out.entry = f.entry
  layout : out.layout = f.layout
  numBlocks : out.numBlocks = f.numBlocks
  terminator? : ∀ b, out.terminator? b = f.terminator? b
  listed : out.Listed
  numInsts : out.numInsts = f.numInsts + 3 * samplesBelow p f m
  list : ∀ b, out.instsOf b = (f.instsOf b).flatMap (flipGroup p f m)
  other : ∀ i inst, f.insts[i]? = some inst → m ≤ i ∨ sampleAt? p f i = none →
    out.insts[i]? = some inst
  sample : ∀ i < m, ∀ inst args, f.insts[i]? = some inst → sampleAt? p f i = some args →
    ∃ target coord ty, p.declNamed? sample = some target ∧ args[1]? = some coord ∧
      p.valueType? f coord = some ty ∧
      (∀ k ty' op, (flipOps types coord ty (flipStart p f i))[k]? = some (ty', op) →
        out.insts[flipStart p f i + k]? = some ⟨op, ty', inst.block⟩) ∧
      out.insts[i]? = some { inst with
        op := .call (.direct target) (args.set 1 (.inst (flipStart p f i + 2))) }

theorem samplesBelow_succ (p : Program) (f : Function) (m : Nat) :
    samplesBelow p f (m + 1) = samplesBelow p f m + if (sampleAt? p f m).isSome then 1 else 0 := by
  unfold samplesBelow
  rw [List.range_succ, List.filter_append, List.length_append]
  by_cases hm : (sampleAt? p f m).isSome <;> simp [hm]

theorem flipGroup_succ (h : i ≠ m ∨ sampleAt? p f m = none) :
    flipGroup p f (m + 1) i = flipGroup p f m i := by
  unfold flipGroup
  refine if_congr ?_ rfl rfl
  constructor
  · rintro ⟨hlt, hs⟩
    refine ⟨Nat.lt_of_le_of_ne (Nat.le_of_lt_succ hlt) ?_, hs⟩
    rintro rfl
    rcases h with h | h
    · exact h rfl
    · simp [h] at hs
  · rintro ⟨hlt, hs⟩
    exact ⟨Nat.lt_succ_of_lt hlt, hs⟩

theorem flippedBelow_zero (hf : f.Listed) : FlippedBelow p types f 0 f := by
  refine ⟨rfl, rfl, rfl, rfl, fun _ => rfl, hf, rfl, fun b => ?_, fun _ _ hin _ => hin, ?_⟩
  · have hs : flipGroup p f 0 = fun i => [i] := by
      funext i
      simp [flipGroup]
    simp [hs]
  · intro i hi
    exact absurd hi (Nat.not_lt_zero i)

theorem FlippedBelow.skip (h : FlippedBelow p types f m out) (hm : sampleAt? p f m = none) :
    FlippedBelow p types f (m + 1) out := by
  have hc : samplesBelow p f (m + 1) = samplesBelow p f m := by
    simp [samplesBelow_succ, hm]
  refine ⟨h.name, h.entry, h.layout, h.numBlocks, h.terminator?, h.listed, by rw [hc, h.numInsts],
    fun b => ?_, fun i inst hin hi => ?_, fun i hi inst args hin ha => ?_⟩
  · rw [h.list]
    exact List.flatMap_congr fun i _ => (flipGroup_succ (.inr hm)).symm
  · exact h.other i inst hin (hi.imp_left fun hle => Nat.le_of_succ_le hle)
  · have hne : i ≠ m := by
      rintro rfl
      rw [hm] at ha
      cases ha
    exact h.sample i (Nat.lt_of_le_of_ne (Nat.le_of_lt_succ hi) hne) inst args hin ha

/-- Flipping the next sample leaves those before it flipped. -/
theorem FlippedBelow.flip {inst : Inst} {coord : Value} {ty : TypeId}
    (hf : f.Listed) (h : FlippedBelow p types f m out)
    (ht : p.declNamed? Shader.sample = some target) (hin : f.insts[m]? = some inst)
    (ha : sampleAt? p f m = some args) (hc : args[1]? = some coord)
    (hty : p.valueType? f coord = some ty) :
    FlippedBelow p types f (m + 1)
      ((out.insertAllBefore m (flipOps types coord ty out.numInsts)).setOp m
        (.call (.direct target) (args.set 1 (.inst (out.numInsts + 2))))) := by
  have ho : m < f.numInsts := (Array.getElem?_eq_some_iff.mp hin).1
  have hgr : f.numInsts ≤ out.numInsts := h.numInsts ▸ Nat.le_add_right _ _
  have hst : flipStart p f m = out.numInsts := h.numInsts.symm
  have hco : samplesBelow p f (m + 1) = samplesBelow p f m + 1 := by
    simp [samplesBelow_succ, ha]
  obtain ⟨before, after, hs⟩ := List.append_of_mem (hf.homed m inst hin)
  have hfi : m ∉ before ∧ m ∉ after := by
    have hn := hf.nodup inst.block
    rw [hs] at hn
    obtain ⟨-, haf, hbe⟩ := List.nodup_append.mp hn
    exact ⟨fun hm => hbe m hm m List.mem_cons_self rfl, (List.nodup_cons.mp haf).1⟩
  -- until now the sample stands alone in its place
  have hl : out.instsOf inst.block
      = before.flatMap (flipGroup p f m) ++ m :: after.flatMap (flipGroup p f m) := by
    rw [h.list, hs, List.flatMap_append, List.flatMap_cons]
    simp [flipGroup]
  have hnew : m ∉ before.flatMap (flipGroup p f m) := by
    have hn := h.listed.nodup inst.block
    rw [hl] at hn
    exact fun hm => (List.nodup_append.mp hn).2.2 m hm m List.mem_cons_self rfl
  have hom := h.other m inst hin (.inl (Nat.le_refl _))
  have hp := Function.putBefore_insertAllBefore (flipOps types coord ty out.numInsts) hom hl hnew
  have hke : ∀ i inst', i ≠ m → out.insts[i]? = some inst' →
      ((out.insertAllBefore m (flipOps types coord ty out.numInsts)).setOp m
        (.call (.direct target) (args.set 1 (.inst (out.numInsts + 2))))).insts[i]? = some inst' := by
    intro i inst' hne hi
    rw [Function.setOp_getElem?_insts, if_neg (Ne.symm hne), hp.kept i, hi]
    exact (Array.getElem?_eq_some_iff.mp hi).1
  refine ⟨hp.name.trans h.name, hp.entry.trans h.entry, hp.layout.trans h.layout,
    hp.numBlocks.trans h.numBlocks, fun b => (hp.terminator? b).trans (h.terminator? b),
    (h.listed.insertAllBefore hom _).setOp _ _, ?_, fun b => ?_, fun i inst' hi' hi => ?_,
    fun i hi inst' args' hi' ha' => ?_⟩
  · rw [Function.setOp_numInsts, hp.numInsts, h.numInsts, hco]
    simp only [flipOps, List.length_cons, List.length_nil]
    omega
  · have hsa : ∀ is : List InstId, m ∉ is →
        is.flatMap (flipGroup p f m) = is.flatMap (flipGroup p f (m + 1)) := fun is his =>
      List.flatMap_congr fun i hi =>
        (flipGroup_succ (.inl (ne_of_mem_of_not_mem hi his))).symm
    show Function.instsOf (out.insertAllBefore m _) b = _
    by_cases hb : b = inst.block
    · subst hb
      rw [hp.list, hs, List.flatMap_append, List.flatMap_cons, ← hsa before hfi.1,
        ← hsa after hfi.2]
      simp [flipGroup, ha, hst, flipOps]
    · have hno : m ∉ f.instsOf b := by
        intro hm
        obtain ⟨inst', hi', hbl⟩ := hf.named b m hm
        rw [hin] at hi'
        exact hb (hbl ▸ Option.some.inj hi' ▸ rfl)
      rw [hp.other b hb, h.list, hsa _ hno]
  · have hne : i ≠ m := by
      rintro rfl
      rcases hi with hi | hi
      · exact absurd hi (Nat.not_succ_le_self i)
      · rw [ha] at hi
        cases hi
    exact hke i inst' hne (h.other i inst' hi' (hi.imp_left fun hle => Nat.le_of_succ_le hle))
  · by_cases hne : i = m
    · subst hne
      rw [hin] at hi'
      rw [ha] at ha'
      obtain rfl := Option.some.inj hi'
      obtain rfl := Option.some.inj ha'
      refine ⟨target, coord, ty, ht, hc, hty, fun k ty' op hk => ?_, ?_⟩
      · rw [hst] at hk ⊢
        have hk' := hp.added k ty' op hk
        rwa [Function.setOp_getElem?_insts, if_neg (Nat.ne_of_lt (by omega))]
      · rw [Function.setOp_getElem?_insts, if_pos rfl, hp.kept i (by omega),
          h.other i inst hin (.inl (Nat.le_refl _)), hst]
        rfl
    · obtain ⟨target', coord', ty', ht', hc', hty', hg, hca⟩ := h.sample i
        (Nat.lt_of_le_of_ne (Nat.le_of_lt_succ hi) hne) inst' args' hi' ha'
      refine ⟨target', coord', ty', ht', hc', hty', fun k ty op hk => ?_,
        hke i _ hne hca⟩
      refine hke _ _ (Nat.ne_of_gt ?_) (hg k ty op hk)
      exact Nat.lt_of_lt_of_le ho (Nat.le_trans (Nat.le_add_right _ _) (Nat.le_add_right _ _))

def LosesCoordinate (p : Program) (f : Function) (i : InstId) : Prop :=
  ∃ args coord, sampleAt? p f i = some args ∧ args[1]? = some coord ∧ p.valueType? f coord = none

theorem foldlM_flipCoordinate (types : TypePool) (hf : f.Listed)
    (ht : p.declNamed? sample = some target) (hm : m ≤ f.numInsts) :
    (∃ out, (List.range m).foldlM (flipCoordinate p types f target) f = .ok out ∧
        FlippedBelow p types f m out) ∨
      (List.range m).foldlM (flipCoordinate p types f target) f = .error .dangling ∧
        ∃ i, LosesCoordinate p f i := by
  induction m with
  | zero => exact .inl ⟨f, rfl, flippedBelow_zero hf⟩
  | succ m ih =>
    rw [List.range_succ, List.foldlM_append]
    rcases ih (Nat.le_of_succ_le hm) with ⟨out, hr, ho⟩ | ⟨hr, hl⟩
    · rw [hr, ok_bind, List.foldlM_cons]
      cases ha : sampleAt? p f m with
      | none =>
        rw [flipCoordinate_of_none ht ha, ok_bind]
        exact .inl ⟨out, rfl, ho.skip ha⟩
      | some args =>
        obtain ⟨-, inst, coord, -, hi, -, hc⟩ := sampleAt?_eq_some ha
        cases hty : p.valueType? f coord with
        | none =>
          rw [flipCoordinate_of_lost ht ha hc hty, error_bind]
          exact .inr ⟨rfl, m, args, coord, ha, hc, hty⟩
        | some ty =>
          rw [flipCoordinate_of_some ht ha hc hty, ok_bind]
          exact .inl ⟨_, rfl, ho.flip hf ht hi ha hc hty⟩
    · rw [hr, error_bind]
      exact .inr ⟨rfl, hl⟩

theorem flippedBelow_of_undeclared (types : TypePool) (hf : f.Listed)
    (h : p.declNamed? sample = none) (m : Nat) : FlippedBelow p types f m f := by
  induction m with
  | zero => exact flippedBelow_zero hf
  | succ m ih => exact ih.skip (by simp [sampleAt?, h])

/-- A function with the coordinates of its samples flipped. -/
structure Flipped (p : Program) (types : TypePool) (f out : Function) : Prop where
  name : out.name = f.name
  entry : out.entry = f.entry
  layout : out.layout = f.layout
  numBlocks : out.numBlocks = f.numBlocks
  terminator? : ∀ b, out.terminator? b = f.terminator? b
  listed : out.Listed
  numInsts : out.numInsts = f.numInsts + 3 * (samples p f).length
  /-- Without the new instructions, the lists are the old ones. -/
  old : ∀ b, (out.instsOf b).filter (· < f.numInsts) = f.instsOf b
  other : ∀ i inst, f.insts[i]? = some inst → i ∉ samples p f → out.insts[i]? = some inst
  /-- A sample keeps its type, its block and all arguments but its coordinate, and has the flip of
  its coordinate directly before it. -/
  sample : ∀ i ∈ samples p f, ∃ target inst args coord ty, p.declNamed? sample = some target ∧
    f.insts[i]? = some inst ∧ inst.op = .call (.direct target) args ∧ args[1]? = some coord ∧
    p.valueType? f coord = some ty ∧
    ∃ v before after, f.numInsts ≤ v ∧
      out.instsOf inst.block = before ++ v :: (v + 1) :: (v + 2) :: i :: after ∧
      out.insts[v]? = some ⟨.extract coord secondLane, (types.element ty).getD TypeId.float,
        inst.block⟩ ∧
      out.insts[v + 1]? = some ⟨.binary .sub (.const (.float ((types.element ty).getD TypeId.float)
        Binary64.one)) (.inst v), (types.element ty).getD TypeId.float, inst.block⟩ ∧
      out.insts[v + 2]? = some ⟨.insert coord (.inst (v + 1)) secondLane, ty, inst.block⟩ ∧
      out.insts[i]? = some ⟨.call (.direct target) (args.set 1 (.inst (v + 2))), inst.ty,
        inst.block⟩

/-- Once all samples are flipped, the lists without the new numbers are the old ones. -/
theorem FlippedBelow.flipped (hf : f.Listed) (h : FlippedBelow p types f f.numInsts out) :
    Flipped p types f out := by
  refine ⟨h.name, h.entry, h.layout, h.numBlocks, h.terminator?, h.listed, h.numInsts, fun b => ?_,
    fun i inst hin hi => ?_, fun i hi => ?_⟩
  · have hg : ∀ i ∈ f.instsOf b,
        (flipGroup p f f.numInsts i).filter (· < f.numInsts) = [i] := by
      intro i hi
      have hlt := hf.lt hi
      have hn : (List.range' (flipStart p f i) 3).filter (· < f.numInsts) = [] := by
        rw [List.filter_eq_nil_iff]
        intro j hj
        have hle : f.numInsts ≤ j :=
          Nat.le_trans (Nat.le_add_right _ _) (List.mem_range'_1.mp hj).1
        simpa using hle
      unfold flipGroup
      split
      · rw [List.filter_append, hn]
        simp [hlt]
      · simp [hlt]
    rw [h.list, List.filter_flatMap, List.flatMap_congr hg, List.flatMap_singleton']
  · refine h.other i inst hin (.inr (Option.not_isSome_iff_eq_none.mp fun hs => hi ?_))
    have hlt : i < f.numInsts := (Array.getElem?_eq_some_iff.mp hin).1
    exact List.mem_filter.mpr ⟨List.mem_range.mpr hlt, hs⟩
  · obtain ⟨hlt, hs⟩ := List.mem_filter.mp hi
    obtain ⟨args, ha⟩ := Option.isSome_iff_exists.mp hs
    obtain ⟨target, inst, -, ht, hin, hop, -⟩ := sampleAt?_eq_some ha
    have hlt : i < f.numInsts := List.mem_range.mp hlt
    obtain ⟨target', coord, ty, ht', hc, hty, hg, hca⟩ :=
      h.sample i hlt inst args hin ha
    obtain rfl := Option.mem_unique ht ht'
    obtain ⟨before, after, hso⟩ := List.append_of_mem (hf.homed i inst hin)
    refine ⟨target, inst, args, coord, ty, ht, hin, hop, hc, hty, flipStart p f i,
      before.flatMap (flipGroup p f f.numInsts), after.flatMap (flipGroup p f f.numInsts),
      Nat.le_add_right _ _, ?_, hg 0 _ _ rfl, hg 1 _ _ rfl, hg 2 _ _ rfl, hca⟩
    rw [h.list, hso, List.flatMap_append, List.flatMap_cons]
    simp [flipGroup, hlt, ha, List.range'_succ]

/-- Flipping the coordinates of a function gives a function with just these flipped, unless one of
them does not exist. -/
theorem flipY_flipped (p : Program) (types : TypePool) (hf : f.Listed) :
    (∃ out, flipY p types f = .ok out ∧ Flipped p types f out) ∨
      flipY p types f = .error .dangling ∧ ∃ i, LosesCoordinate p f i := by
  unfold flipY
  cases htarget : p.declNamed? sample with
  | none => exact .inl ⟨f, rfl, (flippedBelow_of_undeclared types hf htarget _).flipped hf⟩
  | some target =>
    refine (foldlM_flipCoordinate types hf htarget (Nat.le_refl _)).imp_left ?_
    rintro ⟨out, hrun, hout⟩
    exact ⟨out, hrun, hout.flipped hf⟩

end Shader

def twoSamples : Function where
  name := "main"
  entry := 0
  blocks := #[⟨[0, 1], some (.jump 1)⟩, ⟨[2, 3], some .ret⟩]
  insts := #[⟨.load (.member 0 []), 4, 0⟩, ⟨.call (.direct 0) [.global 1, .inst 0], 4, 0⟩,
    ⟨.call (.direct 0) [.global 1, .inst 1], 4, 1⟩, ⟨.store (.inst 2) (.member 2 []), .void, 1⟩]
  layout := [0, 1]

def sampleProgram : Program :=
  ⟨"shader", [.plain "uv" 4, .plain "picture" 5, .plain "output" 4], [⟨"sample", [5, 4], 4⟩],
    [twoSamples]⟩

def sampleTypes : TypePool :=
  ((TypePool.empty.intern (.vector .float 2)).2.intern (.texture .planar)).2

theorem twoSamples_listed : twoSamples.Listed := by
  have hh : ∀ e < 4, (twoSamples.insts[e]?).all fun inst =>
      decide (e ∈ twoSamples.instsOf inst.block) := by decide
  have hn : ∀ b < 2, ∀ i ∈ twoSamples.instsOf b,
      (twoSamples.insts[i]?).any fun inst => decide (inst.block = b) := by decide
  have hno : ∀ b < 2, (twoSamples.instsOf b).Nodup := by decide
  refine ⟨fun e inst he => ?_, fun b i hi => ?_, fun b => ?_⟩
  · have ha := hh e (Array.getElem?_eq_some_iff.mp he).1
    simpa [he] using ha
  · simpa [Option.any_eq_true] using hn b (Function.lt_of_mem_instsOf hi) i hi
  · by_cases hb : b < 2
    · exact hno b hb
    · rw [Function.instsOf_eq_nil (Nat.not_lt.mp hb)]
      exact List.nodup_nil

theorem flipped_twoSamples : twoSamples.Listed ∧
    ∃ out, Shader.flipY sampleProgram sampleTypes twoSamples = .ok out ∧
      Shader.Flipped sampleProgram sampleTypes twoSamples out ∧
      Shader.samples sampleProgram twoSamples = [1, 2] ∧
      out.instsOf 0 = [0, 4, 5, 6, 1] ∧ out.instsOf 1 = [7, 8, 9, 2, 3] := by
  have hlists : (Shader.flipY sampleProgram sampleTypes twoSamples).toOption.any (fun out =>
      out.instsOf 0 == [0, 4, 5, 6, 1] && out.instsOf 1 == [7, 8, 9, 2, 3]) = true := by
    decide +kernel
  rcases Shader.flipY_flipped sampleProgram sampleTypes twoSamples_listed with
    ⟨out, hrun, hout⟩ | ⟨hrun, -⟩
  · rw [hrun] at hlists
    exact ⟨twoSamples_listed, out, hrun, hout, by decide +kernel,
      by simpa [Except.toOption] using hlists⟩
  · simp [hrun, Except.toOption] at hlists

end Stagewise
