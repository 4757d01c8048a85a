import Stagewise.Function.Builder
import Stagewise.Program
import Stagewise.Replay.Walk

namespace Stagewise

/-- The part of a program that belongs to one scope, while it is being made. Each table has its
latest entry first. -/
structure Draft where
  scope : Scope
  program : Program
  builder : Builder
  copies : List (InstId × Value)
  globals : List (GlobalId × GlobalId)
  /-- The blocks here from which control leaves source blocks. -/
  exits : List (BlockId × BlockId)
  /-- The blocks here at which the arms of branches come together. -/
  joins : List (BlockId × BlockId)
  /-- The values here that come from other scopes, by the instructions that make them. -/
  reads : List (InstId × Value)
  /-- The source blocks whose branches were copied, by the blocks here that they end. -/
  branches : List (BlockId × BlockId)
  /-- The instructions that were copied here, with the blocks that control came from. -/
  visits : List (Option BlockId × InstId)

/-- An arm of a copied branch: its first block, and whether the block was made for it. -/
structure Arm where
  target : BlockId
  fresh : Bool

/-- A copied branch: the block that it ends, its arms, and where they come together. -/
structure Fork where
  branch : BlockId
  ifTrue : Arm
  ifFalse : Arm
  join : Option BlockId

namespace Draft

def empty (scope : Scope) (program func : String) : Draft :=
  ⟨scope, .empty program, .empty func, [], [], [], [], [], [], []⟩

def entry (d : Draft) : BlockId := d.builder.func.entry

def emit (d : Draft) (ty : TypeId) (op : Operation) : InstId × Draft :=
  let (id, builder) := d.builder.emit ty op
  (id, { d with builder := builder })

def append (d : Draft) (block : BlockId) (ty : TypeId) (op : Operation) : InstId × Draft :=
  let (id, builder) := d.builder.append block ty op
  (id, { d with builder := builder })

def setOp (d : Draft) (i : InstId) (op : Operation) : Draft :=
  { d with builder := { d.builder with func := d.builder.func.setOp i op } }

def noteVisit (d : Draft) (pred : Option BlockId) (i : InstId) : Draft :=
  { d with visits := (pred, i) :: d.visits }

def addCopy (d : Draft) (i : InstId) (v : Value) : Draft := { d with copies := (i, v) :: d.copies }

def declareGlobal (d : Draft) (g : GlobalId) (decl : GlobalDecl) : GlobalId × Draft :=
  let (copy, program) := d.program.getOrAddGlobal decl
  (copy, { d with program := program, globals := (g, copy) :: d.globals })

def declareRecord (d : Draft) (decl : GlobalDecl) : GlobalId × Draft :=
  let (global, program) := d.program.getOrAddGlobal decl
  (global, { d with program := program })

def declare (d : Draft) (decl : FunctionDecl) : FuncId × Draft :=
  let (id, program) := d.program.declare decl
  (id, { d with program := program })

/-- Opens the read of a value of another scope, in the entry block. A common lane is carried alone
and spread over all lanes again. The answer is the read and the value. -/
def openRead (d : Draft) (i : InstId) (ty fieldTy : TypeId) (lanes : Option Nat) :
    (InstId × Value) × Draft :=
  let (read, d) := d.append d.entry fieldTy (.load .pending)
  let (value, d) := match lanes with
    | none => (read, d)
    | some n =>
      let undef := Value.const (.undef ty)
      let (lane, d) := d.append d.entry ty
        (.insert undef (.inst read) (.const (.int TypeId.int 0)))
      d.append d.entry ty (.shuffle (.inst lane) undef (List.replicate n 0))
  ((read, .inst value), { d with reads := (i, .inst value) :: d.reads })

def joinBlock (d : Draft) (join : BlockId) : BlockId × Draft :=
  match d.joins.lookup join with
  | some block => (block, d)
  | none =>
    let (block, builder) := d.builder.newBlock
    (block, { d with builder := builder, joins := (join, block) :: d.joins })

/-- The first block of an arm: the block at which the arms come together if the arm starts there,
or else a new one. -/
def armBlock (d : Draft) (site : BranchSite) (join : Option BlockId) (arm : BlockId) : Arm × Draft :=
  match join with
  | some block =>
    if some arm = site.join then (⟨block, false⟩, d)
    else
      let (id, builder) := d.builder.newBlock
      (⟨id, true⟩, { d with builder := builder })
  | none =>
    let (id, builder) := d.builder.newBlock
    (⟨id, true⟩, { d with builder := builder })

def openFork (d : Draft) (site : BranchSite) (cond : Value) : Fork × Draft :=
  let (join, d) := match site.join with
    | some join =>
      let (block, d) := d.joinBlock join
      (some block, d)
    | none => (none, d)
  let (ifTrue, d) := d.armBlock site join site.ifTrue
  let (ifFalse, d) := d.armBlock site join site.ifFalse
  (⟨d.builder.current, ifTrue, ifFalse, join⟩,
    { d with
      builder := d.builder.terminate (.branch cond ifTrue.target ifFalse.target)
      branches := (d.builder.current, site.block) :: d.branches })

def enterArm (d : Draft) (fork : Fork) (arm : Arm) : Draft :=
  { d with builder := d.builder.positionAt (if arm.fresh then arm.target else fork.branch) }

/-- Leads the end of an arm to where the arms come together, unless it is there or has ended. -/
def leaveArm (d : Draft) (fork : Fork) : Draft :=
  match fork.join with
  | some join =>
    if d.builder.current = join then d
    else { d with builder := d.builder.terminateIfOpen (.jump join) }
  | none => d

def closeFork (d : Draft) (fork : Fork) : Draft :=
  match fork.join with
  | some join => { d with builder := (d.builder.moveToEnd join).positionAt join }
  | none => d

def noteExit (d : Draft) (block : BlockId) : Draft :=
  { d with exits := (block, d.builder.current) :: d.exits }

def ret (d : Draft) : Draft := { d with builder := d.builder.terminateIfOpen .ret }

end Draft

/-- The part of a program that belongs to one scope. Its program has one function. -/
structure Partition where
  scope : Scope
  program : Program
  deriving DecidableEq

def Draft.finish (d : Draft) : Partition := ⟨d.scope, d.program.addFunction d.builder.finish⟩

end Stagewise
