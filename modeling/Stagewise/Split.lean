import Stagewise.Classification.Seeding
import Stagewise.Emission.Branching
import Stagewise.Emission.Record
import Stagewise.Scope.Table

/-!
Splitting a function by a table of scopes: its parts are classified from the roots and sinks of the
table, copied into one program for each scope, and joined by transfer records.
-/

namespace Stagewise

structure SinkResult where
  name : String
  write : Option SinkWrite
  deriving DecidableEq

structure SplitOutput where
  partitions : List Partition
  /-- The records of the table first, then those that the table does not name. -/
  transfers : List TransferLayout
  problems : List Problem
  fanout : List FanOut
  sinks : List SinkResult
  classification : Classification
  deriving DecidableEq

namespace Classifier

def classifySinks (c : Classifier) (sinks : List Endpoint) : Act State (List SinkResult) :=
  sinks.mapM fun sink => do
    return ⟨sink.name, ← c.classifySink sink.name sink.scope sink.flags⟩

/-- Declares the roots of a table, does something else, and classifies the sinks. -/
def classifyTable {τ : Type} (c : Classifier) (table : ScopeTable) (beforeSinks : Act State τ) :
    Act State (τ × List SinkResult) := do
  table.roots.forM fun root => c.declareRootNamed root.name root.scope root.flags
  let extra ← beforeSinks
  return (extra, ← c.classifySinks table.sinks)

end Classifier

namespace ScopeTable

def generatedName (t : ScopeTable) (k : RecordKey) : String :=
  t.scopeName k.src ++ "_to_" ++ t.scopeName k.dst ++ if k.objects then "_objects" else ""

/-- The records that a table names. -/
def records (t : ScopeTable) : List (RecordKey × String) :=
  t.transfers.map fun d => (⟨d.src, d.dst, d.objects⟩, d.name)

/-- The records that slots are left for, under generated names. -/
def others (t : ScopeTable) (s : Emission) : List (RecordKey × String) :=
  (s.ledger.pending s.types).map fun k => (k, t.generatedName k)

end ScopeTable

namespace Source

def layOutAll (src : Source) (records : List (RecordKey × String)) :
    Act Emission (List TransferLayout) := do
  return (← records.mapM fun r => src.layOut r.1 r.2).filterMap id

def layOutTable (src : Source) (table : ScopeTable) : Act Emission (List TransferLayout) := do
  let named ← src.layOutAll table.records
  let others ← src.layOutAll (table.others (← get))
  return named ++ others

def emitTable (src : Source) (t : PostDominators) (table : ScopeTable) :
    Act Emission (List TransferLayout) := do
  src.copyAll t
  src.layOutTable table

end Source

def Program.function (p : Program) (name : String) : Except Fault Function :=
  match p.functionNamed? name with
  | some f => .ok f
  | none => .error (.functionNotFound name)

/-- Splits a function by a table. Once the roots are declared, `beforeSinks` may work on the
classification. The answer comes with that of `beforeSinks` and with the types, to which those of the
records are added. -/
def splitWith {τ : Type} (p : Program) (types : TypePool) (f : Function) (table : ScopeTable)
    (strategy : Strategy) (beforeSinks : Classifier → Act Classifier.State τ) :
    Except Fault (SplitOutput × τ × TypePool) := do
  table.validate
  let tree ← PostDominators.ofFunction f
  let classifier ← Classifier.ofFunction p f strategy tree
  let (classified, state) :=
    (classifier.classifyTable table (beforeSinks classifier)).run classifier.initial
  let (extra, sinks) ← classified
  let src : Source := ⟨p, f, state.table⟩
  let (emitted, final) := (src.emitTable tree table).run (Emission.start src types table.scopes)
  let transfers ← emitted
  return (⟨final.partitions, transfers, state.problems ++ final.problems, final.fanout, sinks,
    state.table⟩, extra, final.types)

def split (p : Program) (types : TypePool) (f : Function) (table : ScopeTable)
    (strategy : Strategy) : Except Fault (SplitOutput × TypePool) := do
  let (output, _, types) ← splitWith p types f table strategy fun _ => pure ()
  return (output, types)

end Stagewise
