import Stagewise.Program
import Stagewise.Proofs.Replay.Dominance

namespace Stagewise

def Value.InRange (p : Program) (f : Function) : Value → Prop
  | .inst i => i < f.numInsts
  | .global g => g < p.numGlobals
  | .const _ => True

namespace Function

structure InstInRange (p : Program) (f : Function) (inst : Inst) : Prop where
  home : inst.block < f.numBlocks
  operand : ∀ v ∈ inst.op.operands, v.InRange p f
  address : ∀ addr g, inst.op.address? = some addr → addr.global? = some g → g < p.numGlobals
  known : inst.op.address? ≠ some .pending
  callee : ∀ callee args, inst.op = .call (.direct callee) args → callee < p.decls.length
  incoming : ∀ incoming, inst.op = .phi incoming → ∀ e ∈ incoming, e.1 < f.numBlocks

/-- The result of an instruction is there when a block begins: it is made in another block, on every
way to this one. -/
def DefinedAbove (f : Function) (b : BlockId) (i : InstId) : Prop :=
  ∃ d, d ≠ b ∧ f.Dominates d b ∧ i ∈ f.instsOf d

def DefinedAtEnd (f : Function) (b : BlockId) (i : InstId) : Prop :=
  ∃ d, f.Dominates d b ∧ i ∈ f.instsOf d

structure Ssa (p : Program) (f : Function) : Prop where
  entry_lt : f.entry < f.numBlocks
  targets : f.TargetsInRange
  inRange : ∀ (i : InstId) (inst : Inst), f.insts[i]? = some inst → f.InstInRange p inst
  listed : ∀ b, ∀ i ∈ f.instsOf b, ∃ inst, f.insts[i]? = some inst ∧ inst.block = b
  nodup : ∀ b, (f.instsOf b).Nodup
  cond_inRange : ∀ b v, f.cond? b = some v → v.InRange p f
  operand_defined : ∀ (b : BlockId) (before : List InstId) (i : InstId) (after : List InstId)
    (inst : Inst), f.instsOf b = before ++ i :: after → f.insts[i]? = some inst →
    inst.op.isPhi = false → ∀ j, .inst j ∈ inst.op.operands → j ∈ before ∨ f.DefinedAbove b j
  incoming_defined : ∀ (b : BlockId) (i : InstId) (inst : Inst)
    (incoming : List (BlockId × Value)), i ∈ f.instsOf b → f.insts[i]? = some inst →
    inst.op = .phi incoming → ∀ e ∈ incoming, ∀ j, e.2 = .inst j → f.DefinedAtEnd e.1 j
  cond_defined : ∀ b j, f.cond? b = some (.inst j) → f.DefinedAtEnd b j

end Function

end Stagewise
