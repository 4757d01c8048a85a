import Stagewise.Replay.Walk

namespace Stagewise

inductive Event
  | inst (pred : Option BlockId) (inst : InstId)
  | branch (site : BranchSite)
  | join (pred : Option BlockId) (block : BlockId)
  | ret (block : BlockId)
  | loop (block : BlockId)
  deriving DecidableEq

namespace Event

/-- Notes an event. With `limit = some (n, e)` there is room for `n` events, and the next one
stops the walk with the fault `e`. -/
def record (limit : Option (Nat × Fault)) (e : Event) : Act (List Event) Unit := do
  let events ← get
  match limit with
  | some (n, fault) => if events.length = n then throw fault else set (events ++ [e])
  | none => set (events ++ [e])

def times {σ : Type} (a : Act σ Unit) : Nat → Act σ Unit
  | 0 => pure ()
  | n + 1 => do
    a
    times a n

/-- The visitor that notes all events and walks both arms of each branch `rounds` times. -/
def recorder (rounds : Nat) (limit : Option (Nat × Fault)) : Visitor Unit (List Event) where
  onInst _ pred i := record limit (.inst pred i)
  onBranch _ site walkArm := do
    record limit (.branch site)
    times (do walkArm () site.ifTrue; walkArm () site.ifFalse) rounds
  onJoin _ pred block := record limit (.join pred block)
  onReturn _ block := record limit (.ret block)
  onLoop _ block := record limit (.loop block)

end Event

namespace Route

def trace (r : Route) (rounds : Nat) (limit : Option (Nat × Fault)) (pred : Option BlockId)
    (start : BlockId) (stop : Option BlockId) : Except Fault Unit × List Event :=
  (r.walk (Event.recorder rounds limit) () pred start stop).run []

end Route

end Stagewise
