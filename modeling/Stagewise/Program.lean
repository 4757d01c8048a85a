import Stagewise.Function

namespace Stagewise

structure GlobalDecl where
  name : String
  ty : TypeId
  constant : Bool
  initial : Option Constant
  deriving DecidableEq

def GlobalDecl.plain (name : String) (ty : TypeId) : GlobalDecl := ⟨name, ty, false, none⟩

structure FunctionDecl where
  name : String
  params : List TypeId
  result : TypeId
  deriving DecidableEq

/-- A program: global bindings, external declarations and function bodies. -/
structure Program where
  name : String
  globals : List GlobalDecl
  decls : List FunctionDecl
  functions : List Function
  deriving DecidableEq

namespace Program

def empty (name : String) : Program := ⟨name, [], [], []⟩

def numGlobals (p : Program) : Nat := p.globals.length

def globalNamed? (p : Program) (name : String) : Option GlobalId :=
  p.globals.findIdx? (·.name == name)

def declNamed? (p : Program) (name : String) : Option FuncId :=
  p.decls.findIdx? (·.name == name)

def functionNamed? (p : Program) (name : String) : Option Function :=
  p.functions.find? (·.name == name)

def addGlobal (p : Program) (g : GlobalDecl) : GlobalId × Program :=
  (p.globals.length, { p with globals := p.globals ++ [g] })

def getOrAddGlobal (p : Program) (g : GlobalDecl) : GlobalId × Program :=
  match p.globalNamed? g.name with
  | some id => (id, p)
  | none => p.addGlobal g

def declare (p : Program) (d : FunctionDecl) : FuncId × Program :=
  match p.declNamed? d.name with
  | some id => (id, p)
  | none => (p.decls.length, { p with decls := p.decls ++ [d] })

def addFunction (p : Program) (f : Function) : Program := { p with functions := p.functions ++ [f] }

def valueType? (p : Program) (f : Function) : Value → Option TypeId
  | .inst id => f.insts[id]?.map Inst.ty
  | .global id => p.globals[id]?.map GlobalDecl.ty
  | .const c => some c.ty

end Program

end Stagewise
