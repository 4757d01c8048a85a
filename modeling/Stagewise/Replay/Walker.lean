import Stagewise.Replay.Trace

/-!
A walker makes walks through a function, one after another. It marks the blocks that it is inside
of, and when a walk ends, in whatever way, it takes away the marks that the walk has set.
Nothing here counts how far a walk has come: `none` stands for a walk that goes on for ever.
-/

namespace Stagewise

structure Walker (σ : Type) where
  /-- The blocks that the walker is inside of. -/
  marks : Array Bool
  /-- What the walk at hand has marked, the last block first. -/
  entered : List BlockId
  state : σ

abbrev Stride (σ : Type) := ExceptT Fault (StateT (Walker σ) Option)

variable {α σ : Type}

namespace Walker

def fresh (f : Function) (s : σ) : Walker σ :=
  ⟨Array.replicate f.numBlocks false, [], s⟩

def isInside (w : Walker σ) (b : BlockId) : Bool :=
  w.marks[b]?.getD false

def enter (w : Walker σ) (b : BlockId) : Walker σ :=
  { w with marks := w.marks.setIfInBounds b true, entered := b :: w.entered }

def leave (w : Walker σ) : Walker σ :=
  { w with marks := w.entered.foldl (·.setIfInBounds · false) w.marks, entered := [] }

end Walker

def Stride.ofAct (a : Act σ α) : Stride σ α := fun w =>
  let outcome := a.run w.state
  some (outcome.1, { w with state := outcome.2 })

/-- A visitor that walks both arms of each branch, the same number of times everywhere. -/
structure Rewalker (σ : Type) where
  rounds : Nat
  onEvent : Event → Act σ Unit
  afterArm : BranchSite → Act σ Unit

def Rewalker.recorder (rounds : Nat) (limit : Option (Nat × Fault)) : Rewalker (List Event) :=
  ⟨rounds, Event.record limit, fun _ => pure ()⟩

namespace Route

mutual

/-- Walks from a block to the end of every way, or to the block `stop`, and takes the marks of the
walk away again. -/
def walkOn (r : Route) (v : Rewalker σ) (pred : Option BlockId) (block : BlockId)
    (stop : Option BlockId) : Stride σ Unit := fun w => do
  let (result, w') ← r |>.chainOn v pred block stop { w with entered := [] }
  return (result, { w'.leave with entered := w.entered })
partial_fixpoint

/-- The walk itself, which leaves its marks. -/
def chainOn (r : Route) (v : Rewalker σ) (pred : Option BlockId) (block : BlockId)
    (stop : Option BlockId) : Stride σ Unit := do
  if some block = stop then Stride.ofAct (v.onEvent (.join pred block))
  else
    match r.func.blocks[block]? with
    | none => throw .dangling
    | some body =>
      if (← get).isInside block then Stride.ofAct (v.onEvent (.loop block))
      else
        modify (·.enter block)
        Stride.ofAct (body.insts.forM fun i => v.onEvent (.inst pred i))
        match body.terminator with
        | some (.jump target) => r |>.chainOn v (some block) target stop
        | some (.branch cond ifTrue ifFalse) =>
          let site := r.siteOf block cond ifTrue ifFalse stop
          Stride.ofAct (v.onEvent (.branch site))
          (List.replicate v.rounds ()).forM fun _ => do
            r |>.walkOn v (some block) site.ifTrue site.stop
            Stride.ofAct (v.afterArm site)
            r |>.walkOn v (some block) site.ifFalse site.stop
            Stride.ofAct (v.afterArm site)
          match site.join with
          | none => pure ()
          | some join => if some join = stop then pure () else r |>.chainOn v none join stop
        | _ => Stride.ofAct (v.onEvent (.ret block))
partial_fixpoint

end

def traceOn (r : Route) (rounds : Nat) (limit : Option (Nat × Fault)) (pred : Option BlockId)
    (start : BlockId) (stop : Option BlockId) (w : Walker (List Event)) :
    Option (Except Fault Unit × Walker (List Event)) :=
  r.walkOn (.recorder rounds limit) pred start stop { w with state := [] }

end Route

end Stagewise
