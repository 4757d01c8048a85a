import Stagewise.Flow.PostDominators

namespace Stagewise

structure BranchSite where
  block : BlockId
  cond : Value
  ifTrue : BlockId
  ifFalse : BlockId
  join : Option BlockId
  /-- Where a walk of an arm ends: where the arms come together, or else where the walk that came
  to the branch ends. -/
  stop : Option BlockId
  deriving DecidableEq

/-- What is done on a walk, in a context of type `γ` and on a state of type `σ`. -/
structure Visitor (γ σ : Type) where
  /-- An instruction, with the block that control came from if there is only one. -/
  onInst : γ → Option BlockId → InstId → Act σ Unit
  /-- A branch, with the way to walk an arm of it in some context. -/
  onBranch : γ → BranchSite → (γ → BlockId → Act σ Unit) → Act σ Unit
  onJoin : γ → Option BlockId → BlockId → Act σ Unit
  onReturn : γ → BlockId → Act σ Unit
  /-- The end of a walk at a block that it is still inside of. -/
  onLoop : γ → BlockId → Act σ Unit

/-- A function to walk through, with its tree of post-dominators. -/
structure Route where
  func : Function
  postDominators : PostDominators

namespace Route

def siteOf (r : Route) (block : BlockId) (cond : Value) (ifTrue ifFalse : BlockId)
    (stop : Option BlockId) : BranchSite :=
  let join := r.postDominators.nearestCommon? ifTrue ifFalse
  ⟨block, cond, ifTrue, ifFalse, join, join <|> stop⟩

variable {γ σ : Type}

/-- Walks from a block to the end of every way, or to the block `stop`. The blocks in `active` are
those that the walk is inside of; there is room for as many more as `room` says. -/
def walkWithin (r : Route) (v : Visitor γ σ) :
    Nat → List BlockId → γ → Option BlockId → BlockId → Option BlockId → Act σ Unit
  | 0, _, _, _, _, _ => throw .dangling
  | room + 1, active, ctx, pred, block, stop =>
    if some block = stop then v.onJoin ctx pred block
    else
      match r.func.blocks[block]? with
      | none => throw .dangling
      | some body =>
        if block ∈ active then v.onLoop ctx block
        else do
          body.insts.forM (v.onInst ctx pred)
          match body.terminator with
          | some (.jump target) =>
            r.walkWithin v room (block :: active) ctx (some block) target stop
          | some (.branch cond ifTrue ifFalse) =>
            let site := r.siteOf block cond ifTrue ifFalse stop
            v.onBranch ctx site fun ctx arm =>
              r.walkWithin v room (block :: active) ctx (some block) arm site.stop
            match site.join with
            | none => pure ()
            | some join =>
              if some join = stop then pure ()
              else r.walkWithin v room (block :: active) ctx none join stop
          | _ => v.onReturn ctx block

/-- Walks from a block to the end of every way, or to the block `stop`. A walk is inside of no
more blocks than there are. -/
def walk (r : Route) (v : Visitor γ σ) (ctx : γ) (pred : Option BlockId) (start : BlockId)
    (stop : Option BlockId) : Act σ Unit :=
  r.walkWithin v (r.func.numBlocks + 1) [] ctx pred start stop

end Route

end Stagewise
