import Stagewise.Classification.Seeding

namespace Stagewise

inductive Request
  | root (global : GlobalId) (scope : Scope) (flags : UsageFlags)
  | rootNamed (name : String) (scope : Scope) (flags : UsageFlags)
  | sink (name : String) (scope : Scope) (flags : UsageFlags)
  | value (value : Value) (flags : UsageFlags)
  | block (block : BlockId) (flags : UsageFlags) (force : Option Scope)
  | snapshot
  | restore (index : Nat)
  | scopeOf (value : Value)

inductive Answer
  | done
  | write (write : Option SinkWrite)
  | scope (scope : Option Scope)
  | snapshot (index : Nat)

namespace Classifier

/-- The state of a classification with the snapshots taken so far. -/
structure Session where
  state : State
  snapshots : List Snapshot

def openSession (c : Classifier) : Session := ⟨c.initial, []⟩

def inSession {α : Type} (a : Act State α) : Act Session α := fun s =>
  let (result, state) := a.run s.state
  (result, { s with state := state })

def answer (c : Classifier) : Request → Act Session Answer
  | .root g scope flags => do
    inSession (c.declareRoot g scope flags)
    return .done
  | .rootNamed name scope flags => do
    inSession (c.declareRootNamed name scope flags)
    return .done
  | .sink name scope flags => return .write (← inSession (c.classifySink name scope flags))
  | .value v flags => return .scope (← inSession (c.classifyValue v flags))
  | .block b flags force => return .scope (← inSession (c.classifyBlock b flags force))
  | .snapshot => do
    let snap ← inSession c.snapshot
    let s ← get
    set { s with snapshots := s.snapshots ++ [snap] }
    return .snapshot s.snapshots.length
  | .restore k => do
    let snap ← Act.ofOption (← get).snapshots[k]?
    inSession (c.restore snap)
    return .done
  | .scopeOf v => do
    let t := (← get).state.table
    if t.hasValue v then return .scope (t.valueScope v) else throw .dangling

def answerAll (c : Classifier) (requests : List Request) : Act Session (List Answer) :=
  requests.mapM c.answer

def scripted (c : Classifier) (requests : List Request) : Act State (List Answer) := fun s =>
  let (result, session) := (c.answerAll requests).run ⟨s, []⟩
  (result, session.state)

/-- Answers requests one after another, each with the session that it leaves behind. A request that
fails does not end the run, except for one that names what does not exist. -/
def transcript (c : Classifier) : List Request → Session → List (Except Fault Answer × Session)
  | [], _ => []
  | r :: rest, s =>
    let (result, s) := (c.answer r).run s
    (result, s) :: match result with
      | .error .dangling => []
      | _ => c.transcript rest s

end Classifier

end Stagewise
