import Mathlib.Data.List.Basic
import Stagewise.Operation

namespace Stagewise

/-- As many places as there are values are filled, one after another, and the others are kept. -/
theorem refillAll_fst (olds vs : List Value) :
    (refillAll olds vs).1 = vs.take olds.length ++ olds.drop vs.length := by
  induction olds generalizing vs with
  | nil => simp [refillAll]
  | cons old olds ih => cases vs <;> simp [refillAll, refill, ih]

theorem dynamic_refillSteps (path : List Step) (vs : List Value) :
    (refillSteps path vs).filterMap Step.dynamic? =
      vs.take (path.filterMap Step.dynamic?).length ++
        (path.filterMap Step.dynamic?).drop vs.length := by
  induction path generalizing vs with
  | nil => simp [refillSteps]
  | cons step path ih =>
    cases step with
    | fixed i => exact ih vs
    | dynamic old => cases vs <;> simp [refillSteps, refill, Step.dynamic?, ih]

theorem values_refillIncoming (incoming : List (BlockId × Value)) (vs : List Value) :
    (refillIncoming incoming vs).map Prod.snd =
      vs.take (incoming.map Prod.snd).length ++ (incoming.map Prod.snd).drop vs.length := by
  induction incoming generalizing vs with
  | nil => simp [refillIncoming]
  | cons e rest ih => cases vs <;> simp [refillIncoming, refill, ih]

theorem fixed_refillSteps (path : List Step) (vs : List Value) :
    (refillSteps path vs).map Step.fixed? = path.map Step.fixed? := by
  induction path generalizing vs with
  | nil => rfl
  | cons step path ih => cases step <;> simp [refillSteps, Step.fixed?, ih]

theorem blocks_refillIncoming (incoming : List (BlockId × Value)) (vs : List Value) :
    (refillIncoming incoming vs).map Prod.fst = incoming.map Prod.fst := by
  induction incoming generalizing vs with
  | nil => rfl
  | cons e rest ih => simp [refillIncoming, ih]

/-- A path is its fixed steps with their gaps, and the values that fill the gaps. -/
theorem steps_ext {path path' : List Step} (hf : path.map Step.fixed? = path'.map Step.fixed?)
    (hd : path.filterMap Step.dynamic? = path'.filterMap Step.dynamic?) : path = path' := by
  induction path generalizing path' with
  | nil => exact (List.map_eq_nil_iff.mp hf.symm).symm
  | cons step path ih =>
    obtain ⟨step', path', rfl, -, -⟩ := List.map_eq_cons_iff.mp hf.symm
    obtain ⟨hs, hm⟩ := List.cons.inj hf
    cases step <;> cases step' <;> simp only [Step.fixed?, reduceCtorEq, Option.some.injEq] at hs
    · rw [hs, ih hm hd]
    · obtain ⟨rfl, hd'⟩ := List.cons.inj hd
      rw [ih hm hd']

/-- The binding of an address and its steps, with gaps for the dynamic ones. -/
def Address.frame : Address → Option (GlobalId × (List Nat ⊕ List (Option Nat)))
  | .member g path => some (g, .inl path)
  | .element g path => some (g, .inr (path.map Step.fixed?))
  | .pending => none

theorem Address.frame_withIndexValues (a : Address) (vs : List Value) :
    (a.withIndexValues vs).frame = a.frame := by
  cases a with
  | element g path => simp [withIndexValues, frame, fixed_refillSteps]
  | _ => rfl

theorem Address.indexValues_withIndexValues (a : Address) (vs : List Value) :
    (a.withIndexValues vs).indexValues
      = vs.take a.indexValues.length ++ a.indexValues.drop vs.length := by
  cases a with
  | element g path => exact dynamic_refillSteps path vs
  | _ => simp [withIndexValues, indexValues, steps]

theorem Address.ext {a b : Address} (hf : a.frame = b.frame) (hi : a.indexValues = b.indexValues) :
    a = b := by
  cases a <;> cases b <;> simp_all [frame]
  exact steps_ext hf.2 hi

def Callee.direct? : Callee → Option FuncId
  | .direct id => some id
  | .indirect _ => none

namespace Operation

/-- All of an operation but its operands. -/
inductive Frame
  | binary (op : BinaryOp)
  | unary (op : UnaryOp)
  | cast (op : CastOp)
  | compare (op : Comparison)
  | select
  | insert
  | extract
  | shuffle (mask : List Nat)
  | load (addr : Option (GlobalId × (List Nat ⊕ List (Option Nat))))
  | store (addr : Option (GlobalId × (List Nat ⊕ List (Option Nat))))
  | phi (blocks : List BlockId)
  | call (callee : Option FuncId)

def frame : Operation → Frame
  | .binary op _ _ => .binary op
  | .unary op _ => .unary op
  | .cast op _ => .cast op
  | .compare op _ _ => .compare op
  | .select _ _ _ => .select
  | .insert _ _ _ => .insert
  | .extract _ _ => .extract
  | .shuffle _ _ mask => .shuffle mask
  | .load addr => .load addr.frame
  | .store _ addr => .store addr.frame
  | .phi incoming => .phi (incoming.map Prod.fst)
  | .call callee _ => .call callee.direct?

variable {op op' : Operation} {vs : List Value}

theorem frame_withOperands (op : Operation) (vs : List Value) :
    (op.withOperands vs).frame = op.frame := by
  cases op with
  | load addr | store v addr => simp [withOperands, frame, addr.frame_withIndexValues]
  | phi incoming => simp [withOperands, frame, blocks_refillIncoming]
  | call callee args => cases callee <;> rfl
  | _ => rfl

theorem opcode_withOperands (op : Operation) (vs : List Value) :
    (op.withOperands vs).opcode = op.opcode := by
  cases op with
  | call callee args => cases callee <;> rfl
  | _ => rfl

theorem operands_withOperands_eq (op : Operation) (vs : List Value) : (op.withOperands vs).operands
    = vs.take op.operands.length ++ op.operands.drop vs.length := by
  cases op with
  | load addr => exact addr.indexValues_withIndexValues vs
  | store v addr =>
    cases vs <;> simp [withOperands, operands, refill, addr.indexValues_withIndexValues]
  | phi incoming => exact values_refillIncoming incoming vs
  | call callee args =>
    cases callee with
    | direct id => exact refillAll_fst args vs
    | indirect target =>
      cases vs <;> simp [withOperands, operands, Callee.operands, refill, refillAll_fst]
  | _ => rcases vs with _ | ⟨a, _ | ⟨b, _ | ⟨c, vs⟩⟩⟩ <;> simp [withOperands, operands, refill]

theorem operands_withOperands (h : vs.length = op.operands.length) :
    (op.withOperands vs).operands = vs := by
  rw [operands_withOperands_eq, List.take_of_length_le (Nat.le_of_eq h),
    List.drop_eq_nil_of_le (Nat.le_of_eq h.symm), List.append_nil]

/-- An operation is its frame and its operands. -/
theorem ext (hf : op.frame = op'.frame) (ho : op.operands = op'.operands) : op = op' := by
  cases op <;> cases op' <;> simp only [frame, reduceCtorEq, Frame.binary.injEq, Frame.unary.injEq,
    Frame.cast.injEq, Frame.compare.injEq, Frame.shuffle.injEq, Frame.load.injEq, Frame.store.injEq,
    Frame.phi.injEq, Frame.call.injEq] at hf
  case load.load => rw [Address.ext hf ho]
  case store.store =>
    obtain ⟨rfl, hi⟩ := List.cons.inj ho
    rw [Address.ext hf hi]
  case phi.phi incoming incoming' =>
    rw [← List.zip_unzip incoming, ← List.zip_unzip incoming', List.unzip_eq_map, List.unzip_eq_map, hf]
    exact congrArg _ (congrArg _ ho)
  case call.call callee args callee' args' =>
    cases callee <;> cases callee' <;> simp_all [Callee.direct?, operands, Callee.operands]
  all_goals simp_all [operands]

/-- Operands are read and replaced as the one part of an operation. Reading leaves none out: the frame
and the operands make up the operation. The k-th place that is filled is the k-th that is read: any
values, however many, are put in place of as many operands, from the first. -/
theorem operands_lens (op : Operation) (us vs ws : List Value)
    (hv : vs.length = op.operands.length) (hw : ws.length = op.operands.length) :
    (op.withOperands vs).operands = vs ∧ op.withOperands op.operands = op ∧
      (op.withOperands vs).withOperands ws = op.withOperands ws ∧
      (op.withOperands vs).frame = op.frame ∧ (op.withOperands vs).opcode = op.opcode ∧
      (∀ op', op' = op ↔ op'.frame = op.frame ∧ op'.operands = op.operands) ∧
      (op.withOperands us).operands
        = us.take op.operands.length ++ op.operands.drop us.length := by
  have hf := op.frame_withOperands
  have hs : ws.length = (op.withOperands vs).operands.length := by rw [operands_withOperands hv, hv, hw]
  refine ⟨operands_withOperands hv, ext (hf _) (operands_withOperands rfl), ext ?_ ?_, hf vs,
    op.opcode_withOperands vs, fun op' => ⟨?_, fun h => ext h.1 h.2⟩, op.operands_withOperands_eq us⟩
  · rw [frame_withOperands, hf, hf]
  · rw [operands_withOperands hs, operands_withOperands hw]
  · rintro rfl
    exact ⟨rfl, rfl⟩

def mixedStore : Operation :=
  .store (.inst 0) (.element 2 [.dynamic (.inst 1), .fixed 3, .dynamic (.inst 2)])

theorem operands_lens_mixedStore :
    mixedStore.operands = [.inst 0, .inst 1, .inst 2] ∧
      (mixedStore.withOperands [.inst 2, .inst 0, .inst 1]).operands = [.inst 2, .inst 0, .inst 1] ∧
      mixedStore.withOperands mixedStore.operands = mixedStore ∧
      (∀ op', op' = mixedStore ↔
        op'.frame = mixedStore.frame ∧ op'.operands = mixedStore.operands) ∧
      (mixedStore.withOperands [.inst 4]).operands = [.inst 4, .inst 1, .inst 2] := by
  obtain ⟨hg, hp, -, -, -, he, ht⟩ := mixedStore.operands_lens [.inst 4]
    [.inst 2, .inst 0, .inst 1] [.inst 0, .inst 0, .inst 0] rfl rfl
  exact ⟨rfl, hg, hp, he, ht⟩

end Operation

end Stagewise
