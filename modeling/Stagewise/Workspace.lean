import Stagewise.Interner
import Stagewise.Split

namespace Stagewise

/-- The members of a list that going through it gets to, each with the state that it finds. -/
def Act.reached {α β σ : Type} (f : α → Act σ β) : List α → σ → List (α × σ)
  | [], _ => []
  | x :: xs, s => (x, s) :: match (f x).run s with
    | (.ok _, t) => reached f xs t
    | (.error _, _) => []

def Emission.hasSlots (s : Emission) (key : RecordKey) : Bool :=
  !((s.ledger.valuesOf s.types key).isEmpty && (s.ledger.arraysOf s.types key).isEmpty)

namespace Source

/-- The names that laying out some records asks for: those of the records that it gets to and that
have slots. -/
def recordNames (src : Source) (records : List (RecordKey × String)) (s : Emission) : List String :=
  ((Act.reached (fun r => src.layOut r.1 r.2) records s).filter fun x => x.2.hasSlots x.1.1).map
    fun x => x.1.2

def tableNames (src : Source) (table : ScopeTable) (s : Emission) : List String :=
  src.recordNames table.records s ++
    match (src.layOutAll table.records).run s with
    | (.error _, _) => []
    | (.ok _, s) => src.recordNames (table.others s) s

/-- The names that copying a function asks for: those of the parts, and of the records that are laid
out if it can be copied. -/
def emittedNames (src : Source) (tree : PostDominators) (table : ScopeTable) (types : TypePool) :
    List String :=
  (table.scopes.map fun name => src.program.name ++ "." ++ name) ++
    match (src.copyAll tree).run (Emission.start src types table.scopes) with
    | (.error _, _) => []
    | (.ok _, s) => src.tableNames table s

end Source

def Classifier.sinkNames (c : Classifier) (table : ScopeTable) : List String :=
  match (table.roots.forM fun root => c.declareRootNamed root.name root.scope root.flags).run
    c.initial with
  | (.error _, _) => []
  | (.ok _, s) =>
    let sinks := (Act.reached (fun sink => do
      return SinkResult.mk sink.name (← c.classifySink sink.name sink.scope sink.flags))
      table.sinks s).map Prod.fst
    sinks.map Endpoint.name

/-- A split with what it leaves behind, whether it succeeds or not: the types, and the names that it
asked for, in order. -/
structure SplitRun where
  answer : Except Fault SplitOutput
  types : TypePool
  names : List String

def openSplit (p : Program) (f : Function) (table : ScopeTable) (strategy : Strategy) :
    Except Fault (PostDominators × Classifier) := do
  table.validate
  let tree ← PostDominators.ofFunction f
  return (tree, ← Classifier.ofFunction p f strategy tree)

def Source.emitRun (src : Source) (tree : PostDominators) (table : ScopeTable) (types : TypePool)
    (problems : List Problem) (sinks : List SinkResult) : SplitRun :=
  let (emitted, final) := (src.emitTable tree table).run (Emission.start src types table.scopes)
  ⟨emitted.map fun transfers => ⟨final.partitions, transfers, problems ++ final.problems,
    final.fanout, sinks, src.table⟩, final.types, src.emittedNames tree table types⟩

def splitRun (p : Program) (types : TypePool) (f : Function) (table : ScopeTable)
    (strategy : Strategy) : SplitRun :=
  match openSplit p f table strategy with
  | .error e => ⟨.error e, types, []⟩
  | .ok (tree, c) =>
    match (c.classifyTable table (pure ())).run c.initial with
    | (.error e, _) => ⟨.error e, types, c.sinkNames table⟩
    | (.ok (_, sinks), state) =>
      let run := Source.emitRun ⟨p, f, state.table⟩ tree table types state.problems sinks
      { run with names := c.sinkNames table ++ run.names }

/-- What splits share: the types, and the numbers of names. -/
structure Workspace where
  types : TypePool
  names : Interner

/-- Splits a function in a workspace. The answer comes with the numbers of all names that the split
asked for. -/
def Workspace.split (p : Program) (f : Function) (table : ScopeTable) (strategy : Strategy) :
    Act Workspace (SplitOutput × List Nat) := fun w =>
  let run := splitRun p w.types f table strategy
  let (numbers, names) := internEach Interner.intern w.names run.names
  (run.answer.map fun out => (out, numbers), ⟨run.types, names⟩)

end Stagewise
