import Stagewise.Classification.Resolution

namespace Stagewise

/-- One write of a sink: a store to its binding, or a call of the function of its name. -/
structure SinkSite where
  inst : InstId
  block : BlockId
  value : Value
  reads : List Value
  /-- Whether the write must keep the branches that decide about it. -/
  conditional : Bool
  deriving DecidableEq

/-- The last write of a sink and where its value ended up. -/
structure SinkWrite where
  value : Value
  scope : Option Scope
  deriving DecidableEq

structure Snapshot where
  table : Classification
  numProblems : Nat

namespace Classifier

def resolveAll (c : Classifier) : Act State Unit := fun s =>
  let (result, table) := c.resolve s.table
  (result, { s with table := table })

def classify (c : Classifier) (work : List Work) : Act State Unit := do
  let s ← Act.ofExcept (c.propagate work (← get))
  set s
  c.resolveAll

def declareRoot (_c : Classifier) (g : GlobalId) (scope : Scope) (flags : UsageFlags) :
    Act State Unit := do
  let s ← get
  if g < s.table.globals.size then
    set { s with table := s.table.setGlobal g ⟨some scope, flags⟩ }
  else throw .dangling

def declareRootNamed (c : Classifier) (name : String) (scope : Scope) (flags : UsageFlags) :
    Act State Unit :=
  match c.program.globalNamed? name with
  | some g => c.declareRoot g scope flags
  | none => pure ()

/-- An instruction as a write of the sink that is a binding, or an external function. -/
def sinkSite? (c : Classifier) (global : Option GlobalId) (effect : Option FuncId) (i : InstId) :
    Option SinkSite :=
  match c.func.insts[i]? with
  | some ⟨.store value addr, _, block⟩ =>
    if global.isSome && addr.global? == global then
      some ⟨i, block, value, value :: addr.indexValues,
        !c.postDominators.postDominates block c.func.entry⟩
    else none
  | some ⟨.call (.direct callee) args, _, block⟩ =>
    if effect == some callee then some ⟨i, block, .inst i, args, true⟩ else none
  | _ => none

def sinkSites (c : Classifier) (name : String) : List SinkSite :=
  c.func.instIds.filterMap
    (c.sinkSite? (c.program.globalNamed? name) (c.program.declNamed? name))

def sinkWork (required : Scope) (flags : UsageFlags) (w : SinkSite) : List Work :=
  Work.ofValues flags w.reads
    ++ if w.conditional then [⟨.block w.block, flags, .single required⟩] else []

/-- Places every write of the sink of a name in the required scope. The answer is the last write;
a sink without writes is a problem. -/
def classifySink (c : Classifier) (name : String) (required : Scope) (flags : UsageFlags) :
    Act State (Option SinkWrite) := do
  let sites := c.sinkSites name
  match sites.getLast? with
  | none =>
    modify fun s => { s with problems := s.problems ++ [.sinkNotFound name] }
    return none
  | some last =>
    modify fun s =>
      { s with table := sites.foldl (fun t w => t.pin w.inst ⟨some required, flags⟩) s.table }
    c.classify (sites.flatMap (sinkWork required flags))
    let t := (← get).table
    match last.value with
    | .inst i =>
      return some ⟨last.value, if t.isPinned i then some required else t.instScope i⟩
    | value => return some ⟨value, t.valueScope value⟩

def classifyValue (c : Classifier) (v : Value) (flags : UsageFlags) :
    Act State (Option Scope) := do
  c.classify (Work.ofValue flags v)
  return (← get).table.valueScope v

/-- Classifies a block and the branches that decide whether it runs, and forces it to exist in a
scope if one is given. The answer is the scope in which it is known whether the block runs. -/
def classifyBlock (c : Classifier) (b : BlockId) (flags : UsageFlags) (force : Option Scope) :
    Act State (Option Scope) := do
  c.classify [⟨.block b, flags, force.elim .empty .single⟩]
  return ((← get).table.block b).scope

def snapshot (_c : Classifier) : Act State Snapshot := do
  let s ← get
  return ⟨s.table, s.problems.length⟩

def restore (_c : Classifier) (snap : Snapshot) : Act State Unit :=
  modify fun s => ⟨snap.table, s.problems.take snap.numProblems⟩

end Classifier

end Stagewise
