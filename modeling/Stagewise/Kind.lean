import Stagewise.Kind.Shader
import Stagewise.Kind.Tables

namespace Stagewise

inductive Kind
  | shader (options : Shader.Options)
  | deformer
  | particle
  | shapeParticle
  deriving DecidableEq

/-- A function split by its kind; a shader also tells when to sort. -/
structure KindOutput where
  output : SplitOutput
  sort : Option Shader.SortMode
  deriving DecidableEq

namespace Kind

def name : Kind → String
  | .shader _ => "shader"
  | .deformer => "deformer"
  | .particle => "particle"
  | .shapeParticle => "shape particle"

def tables : Kind → List (String × ScopeTable)
  | .shader options => [("main", Shader.table options)]
  | .deformer => [("main", Deformer.table)]
  | .particle => [("create", Particle.createTable), ("update", Particle.updateTable)]
  | .shapeParticle => [("main", Particle.shapeTable)]

def splitBy (kind : Kind) (table : ScopeTable) (p : Program) (types : TypePool) (f : Function) :
    Except Fault (KindOutput × TypePool) :=
  match kind with
  | .shader options => do
    let (output, sort, types) ← Shader.split options p types f
    return (⟨output, some sort⟩, types)
  | _ => do
    let (output, types) ← split p types f table .plain
    return (⟨output, none⟩, types)

/-- Splits functions in turn; those that the kind has no table for are left out. -/
def splitFunctions (kind : Kind) (p : Program) :
    List Function → TypePool → Except Fault (List KindOutput × TypePool)
  | [], types => .ok ([], types)
  | f :: rest, types =>
    match kind.tables.lookup f.name with
    | some table => do
      let (output, types) ← kind.splitBy table p types f
      let (outputs, types) ← kind.splitFunctions p rest types
      return (output :: outputs, types)
    | none => kind.splitFunctions p rest types

def splitProgram (kind : Kind) (p : Program) (types : TypePool) :
    Except Fault (List KindOutput × TypePool) :=
  kind.splitFunctions p p.functions types

/-- Splits programs that have nothing to do with each other. A program that fails does not keep the
others from being split, except for one that names what does not exist. -/
def splitBatch (kind : Kind) :
    List (Program × TypePool) → Except Fault (List (Except Fault (List KindOutput × TypePool)))
  | [] => .ok []
  | (p, types) :: rest =>
    match kind.splitProgram p types with
    | .error .dangling => .error .dangling
    | result => (kind.splitBatch rest).map (result :: ·)

end Kind

end Stagewise
