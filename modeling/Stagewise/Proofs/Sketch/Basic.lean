import Mathlib.Logic.Function.Basic
import Stagewise.Emission.Draft
import Stagewise.Proofs.Replay.Itinerary

namespace Stagewise

/-- What a sketch keeps of an instruction: a phi with the blocks that its values come from, or a write
by the source instruction that it copies. -/
inductive Mark
  | phi (blocks : List BlockId)
  | write (source : InstId)

def Mark.write? : Mark → Option InstId
  | .phi _ => none
  | .write i => some i

/-- How a block of a sketch ends. A branch goes by the source block whose branch it copies. -/
inductive Exit
  | jump (target : BlockId)
  | branch (source ifTrue ifFalse : BlockId)
  | ret

def Exit.targets : Exit → List BlockId
  | .jump target => [target]
  | .branch _ ifTrue ifFalse => [ifTrue, ifFalse]
  | .ret => []

structure Sketch where
  size : Nat
  marks : BlockId → List Mark
  ends : BlockId → Option Exit
  current : BlockId
  exits : BlockId → Option BlockId
  joins : BlockId → Option BlockId
  clashes : Nat

namespace Sketch

def empty : Sketch := ⟨1, fun _ => [], fun _ => none, 0, fun _ => none, fun _ => none, 0⟩

def append (k : Sketch) (ms : List Mark) : Sketch :=
  { k with marks := Function.update k.marks k.current (k.marks k.current ++ ms) }

def finish (k : Sketch) (e : Exit) : Sketch :=
  { k with
    ends := Function.update k.ends k.current (some e)
    clashes := if (k.ends k.current).isSome then k.clashes + 1 else k.clashes }

def finishIfOpen (k : Sketch) (e : Exit) : Sketch :=
  if (k.ends k.current).isSome then k else k.finish e

def joinBlock (k : Sketch) (join : BlockId) : BlockId × Sketch :=
  match k.joins join with
  | some block => (block, k)
  | none =>
    (k.size, { k with size := k.size + 1, joins := Function.update k.joins join (some k.size) })

def armBlock (k : Sketch) (site : BranchSite) (join : Option BlockId) (arm : BlockId) :
    Arm × Sketch :=
  match join with
  | some block =>
    if some arm = site.join then (⟨block, false⟩, k)
    else (⟨k.size, true⟩, { k with size := k.size + 1 })
  | none => (⟨k.size, true⟩, { k with size := k.size + 1 })

def openArms (k : Sketch) (site : BranchSite) (join : Option BlockId) : Fork × Sketch :=
  let (ifTrue, k) := k.armBlock site join site.ifTrue
  let (ifFalse, k) := k.armBlock site join site.ifFalse
  (⟨k.current, ifTrue, ifFalse, join⟩, k.finish (.branch site.block ifTrue.target ifFalse.target))

def openFork (k : Sketch) (site : BranchSite) : Fork × Sketch :=
  match site.join with
  | some join => (k.joinBlock join).2.openArms site (some (k.joinBlock join).1)
  | none => k.openArms site none

def enterArm (k : Sketch) (fork : Fork) (arm : Arm) : Sketch :=
  { k with current := if arm.fresh then arm.target else fork.branch }

def leaveArm (k : Sketch) (fork : Fork) : Sketch :=
  match fork.join with
  | some join => if k.current = join then k else k.finishIfOpen (.jump join)
  | none => k

def closeFork (k : Sketch) (fork : Fork) : Sketch :=
  match fork.join with
  | some join => { k with current := join }
  | none => k

def noteExit (k : Sketch) (block : BlockId) : Sketch :=
  { k with exits := Function.update k.exits block (some k.current) }

end Sketch

/-- What is drawn of a function for one scope: the branches that the scope wants, and the marks of a
block with given exits and predecessor, whose writes depend on neither. -/
structure Plan where
  wants : BranchSite → Bool
  marks : (BlockId → Option BlockId) → Option BlockId → BlockId → List Mark
  writes : BlockId → List InstId
  marks_writes : ∀ exits pred b, (marks exits pred b).filterMap Mark.write? = writes b

namespace Itinerary

/-- Draws what a walk along an itinerary copies into one scope. The walk is faithful if the scope
follows it through every branch. -/
def draw (plan : Plan) : Itinerary → Bool → Option BlockId → Sketch → Sketch
  | .join _, _, pred, k => pred.elim k k.noteExit
  | .ret block, faithful, pred, k =>
    let k := k.append (plan.marks k.exits pred block)
    if faithful then k.finishIfOpen .ret else k
  | .jump block next, faithful, pred, k =>
    next.draw plan faithful (some block) (k.append (plan.marks k.exits pred block))
  | .fork site arm rest, faithful, pred, k =>
    let k := k.append (plan.marks k.exits pred site.block)
    let k :=
      if plan.wants site then
        let fork := (k.openFork site).1
        let k := (k.openFork site).2
        let k := ((arm site.ifTrue).draw plan faithful (some site.block)
          (k.enterArm fork fork.ifTrue)).leaveArm fork
        let k := ((arm site.ifFalse).draw plan faithful (some site.block)
          (k.enterArm fork fork.ifFalse)).leaveArm fork
        k.closeFork fork
      else
        (arm site.ifFalse).draw plan false (some site.block)
          ((arm site.ifTrue).draw plan false (some site.block) k)
    rest.draw plan faithful none k
  | _, _, _, k => k

variable {plan : Plan} {site : BranchSite}

theorem draw_fork_wanted (h : plan.wants site = true) (arm : BlockId → Itinerary)
    (rest : Itinerary) (faithful : Bool) (pred : Option BlockId) {k k1 : Sketch} {fork : Fork}
    (ho : (k.append (plan.marks k.exits pred site.block)).openFork site = (fork, k1)) :
    (Itinerary.fork site arm rest).draw plan faithful pred k
      = rest.draw plan faithful none ((((arm site.ifFalse).draw plan faithful (some site.block)
          ((((arm site.ifTrue).draw plan faithful (some site.block)
            (k1.enterArm fork fork.ifTrue)).leaveArm fork).enterArm fork fork.ifFalse)).leaveArm
          fork).closeFork fork) := by
  simp only [draw, h, if_true, ho]

theorem draw_fork_unwanted (h : plan.wants site = false) (arm : BlockId → Itinerary)
    (rest : Itinerary) (faithful : Bool) (pred : Option BlockId) (k : Sketch) :
    (Itinerary.fork site arm rest).draw plan faithful pred k
      = rest.draw plan faithful none ((arm site.ifFalse).draw plan false (some site.block)
          ((arm site.ifTrue).draw plan false (some site.block)
            (k.append (plan.marks k.exits pred site.block)))) := by
  simp [draw, h]

end Itinerary

end Stagewise
