import Stagewise.Classification.Table
import Stagewise.Flow.ControlDependence
import Stagewise.Problem
import Stagewise.Strategy

namespace Stagewise

/-- A function with what its classification looks at but does not change. -/
structure Classifier where
  program : Program
  func : Function
  strategy : Strategy
  postDominators : PostDominators
  /-- For each block, the blocks whose branches decide whether it runs. -/
  control : Array (List BlockId)

namespace Classifier

def ofFunction (p : Program) (f : Function) (s : Strategy) (t : PostDominators) :
    Except Fault Classifier := do
  let control ← f.controlDependence t
  return ⟨p, f, s, t, control⟩

def parents (c : Classifier) (b : BlockId) : List BlockId := c.control[b]?.getD []

/-- The classification so far, and the problems met on the way. -/
structure State where
  table : Classification
  problems : List Problem
  deriving DecidableEq

def initial (c : Classifier) : State := ⟨.unknown c.program c.func, []⟩

def State.report (s : State) (p : Problem) : State :=
  { s with problems := Problem.note s.problems p }

end Classifier

inductive Node
  | inst (id : InstId)
  | global (id : GlobalId)
  | block (id : BlockId)
  | terminator (id : BlockId)
  deriving DecidableEq

/-- Uses, and scopes to exist in, on their way to a node. -/
structure Work where
  node : Node
  flags : UsageFlags
  force : ScopeSet
  deriving DecidableEq

namespace Work

def reach (node : Node) (flags : UsageFlags) : Work := ⟨node, flags, .empty⟩

def ofValue (flags : UsageFlags) : Value → List Work
  | .inst id => [reach (.inst id) flags]
  | .global id => [reach (.global id) flags]
  | .const _ => []

def ofValues (flags : UsageFlags) (vs : List Value) : List Work := vs.flatMap (ofValue flags)

end Work

namespace Classifier

def callRule? (c : Classifier) (i : InstId) (callee : FuncId) (args : List Value)
    (flags : UsageFlags) : Option CallRule :=
  c.program.decls[callee]?.map fun d => c.strategy.classifyCall ⟨i, d.name, args⟩ flags

/-- What an instruction depends on, and the problem of one that cannot be looked into. -/
def instWork (c : Classifier) (i : InstId) (op : Operation) (flags : UsageFlags) :
    Except Fault (List Work × Option Problem) :=
  match op with
  | .load .pending => .ok ([], some (.unsupportedAddress i))
  | .load (.member g _) => .ok ([.reach (.global g) flags], none)
  | .load (.element g path) =>
    .ok (.reach (.global g) flags :: Work.ofValues flags (path.filterMap Step.dynamic?), none)
  | .phi incoming =>
    .ok (incoming.flatMap fun e => Work.ofValue flags e.2 ++ [.reach (.block e.1) flags], none)
  | .call (.direct callee) args => do
    let rule ← orDangling (c.callRule? i callee args flags)
    return (Work.ofValues rule.argFlags args, none)
  | .call (.indirect _) _ => .ok ([], some (.indirectCall i))
  | op => .ok (Work.ofValues flags op.operands, none)

def controlWork (c : Classifier) (b : BlockId) (flags : UsageFlags) : List Work :=
  (c.parents b).map fun p => .reach (.terminator p) flags

def condWork (c : Classifier) (b : BlockId) (flags : UsageFlags) : List Work :=
  (c.func.cond? b).elim [] (Work.ofValue flags)

/-- Looks at one piece of work, and gives the work that it leads to, in order. -/
def visit (c : Classifier) (s : State) (w : Work) : Except Fault (List Work × State) :=
  match w.node with
  | .global g => do
    let info ← orDangling s.table.globals[g]?
    return ([], { s with table := s.table.setGlobal g { info with flags := info.flags.union w.flags } })
  | .inst i => do
    let info ← orDangling s.table.insts[i]?
    let inst ← orDangling c.func.insts[i]?
    if s.table.isPinned i || info.flags.contains w.flags then
      return ([], s)
    else
      let flags := info.flags.union w.flags
      let (work, problem) ← c.instWork i inst.op flags
      let s := { s with table := s.table.setInst i { info with flags := flags } }
      return (work ++ c.controlWork inst.block flags, problem.elim s s.report)
  | .terminator b => do
    let info ← orDangling s.table.terminators[b]?
    if info.flags.contains w.flags then
      return ([], s)
    else
      let flags := info.flags.union w.flags
      let s := { s with table := s.table.setTerminator b { info with flags := flags } }
      return (c.condWork b flags ++ c.controlWork b flags, s)
  | .block b => do
    let info ← orDangling s.table.blocks[b]?
    let known := s.table.forcedAt b
    if info.flags.contains w.flags && (w.force.diff known).isEmpty then
      return ([], s)
    else
      let flags := info.flags.union w.flags
      let force := known.union w.force
      let table := (s.table.setBlock b { info with flags := flags }).setForced b force
      let table := (c.parents b).foldl (Classification.addGuards · force) table
      return (c.condWork b flags ++ (c.parents b).map fun p => ⟨.block p, flags, force⟩,
        { s with table := table })

/-- Looks at work until there is none, the latest first. The answer has the work that is left. -/
def propagateWithin (c : Classifier) : Nat → List Work → State → Except Fault (List Work × State)
  | 0, stack, s => .ok (stack, s)
  | _ + 1, [], s => .ok ([], s)
  | fuel + 1, w :: stack, s => do
    let (work, s) ← c.visit s w
    c.propagateWithin fuel (work.reverse ++ stack) s

def fanIn (c : Classifier) : Nat :=
  (c.func.insts.foldl (fun n inst => n + 2 * inst.op.operands.length + 1) 1)
    + c.control.foldl (fun n parents => n + parents.length) 1

/-- How often nodes can learn something new: an instruction, a block and a terminator learn a use
at a time, a block also a scope at a time. -/
def learnings (c : Classifier) : Nat := 32 * (c.func.numInsts + 3 * c.func.numBlocks)

/-- Looks at the given work, the last piece first, and at all that it leads to. -/
def propagate (c : Classifier) (work : List Work) (s : State) : Except Fault State :=
  (c.propagateWithin (work.length + c.learnings * c.fanIn + 1) work.reverse s).map Prod.snd

end Classifier

end Stagewise
