import Stagewise.Emission.Copy

namespace Stagewise

/-- The scopes that a walk copies into, and those among them whose parts follow the walk through
every branch. -/
structure Coverage where
  scopes : ScopeSet
  faithful : ScopeSet
  deriving DecidableEq

namespace Source

def wantedScopes (src : Source) (site : BranchSite) : ScopeSet :=
  let phis := site.join.elim [] src.func.phis
  (ScopeSet.ofList (phis.filterMap src.table.instScope)).union (src.table.guardsAt site.block)

def copyArm (scope : Scope) (fork : Fork) (arm : Arm) (walk : Act Emission Unit) :
    Act Emission Unit := do
  Emission.updateDraft scope (·.enterArm fork arm)
  walk
  Emission.updateDraft scope (·.leaveArm fork)

def fanOut (src : Source) (site : BranchSite) (scope : Scope)
    (walkArm : BlockId → Act Emission Unit) : Act Emission Unit := do
  let cond ← src.getValue scope site.cond
  let fork ← Emission.editDraft scope (·.openFork site cond)
  copyArm scope fork fork.ifTrue (walkArm site.ifTrue)
  copyArm scope fork fork.ifFalse (walkArm site.ifFalse)
  Emission.updateDraft scope (·.closeFork fork)

/-- Copies a branch into some scopes in turn; the riders go along on the first walk. -/
def fanOutAll (src : Source) (site : BranchSite) (faithful : ScopeSet)
    (walkArm : Coverage → BlockId → Act Emission Unit) :
    ScopeSet → List Scope → Act Emission Unit
  | _, [] => return ()
  | riders, scope :: rest => do
    src.fanOut site scope
      (walkArm ⟨(ScopeSet.single scope).union riders, faithful.inter (.single scope)⟩)
    src.fanOutAll site faithful walkArm .empty rest

/-- Copies a branch into the scopes of a walk that want it. If none does, the work of both arms is
done without it. -/
def copyBranch (src : Source) (ctx : Coverage) (site : BranchSite)
    (walkArm : Coverage → BlockId → Act Emission Unit) : Act Emission Unit := do
  let fanned := (src.wantedScopes site).inter ctx.scopes
  if fanned.isEmpty then
    walkArm { ctx with faithful := .empty } site.ifTrue
    walkArm { ctx with faithful := .empty } site.ifFalse
  else
    modify fun s => { s with fanout := FanOut.note site.block fanned s.fanout }
    src.fanOutAll site ctx.faithful walkArm (ctx.scopes.diff fanned) fanned.toList

def visitInst (src : Source) (ctx : Coverage) (pred : Option BlockId) (i : InstId) :
    Act Emission Unit :=
  match src.table.instScope i with
  | some scope => if ctx.scopes.contains scope then src.copyInst scope pred i else return ()
  | none => return ()

def copier (src : Source) : Visitor Coverage Emission where
  onInst := src.visitInst
  onBranch := src.copyBranch
  onJoin ctx pred _ :=
    match pred with
    | some pred => ctx.scopes.toList.forM fun scope => Emission.updateDraft scope (·.noteExit pred)
    | none => return ()
  onReturn ctx _ :=
    (ctx.scopes.inter ctx.faithful).toList.forM fun scope => Emission.updateDraft scope Draft.ret
  onLoop _ block := Emission.report (.unsupportedLoop block)

def copyAll (src : Source) (t : PostDominators) : Act Emission Unit := do
  let all := ScopeSet.first (← get).drafts.size
  Route.walk ⟨src.func, t⟩ src.copier ⟨all, all⟩ none src.func.entry none

end Source

end Stagewise
