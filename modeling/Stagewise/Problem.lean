import Stagewise.Scope.Label
import Stagewise.Value

namespace Stagewise

/-- What a run could not do as asked. A run with problems goes on. -/
inductive Problem
  | sinkNotFound (name : String)
  | indirectCall (inst : InstId)
  /-- A read whose address cannot be carried to another scope. -/
  | unsupportedAddress (inst : InstId)
  | undefinedValue (inst : InstId)
  | backwardTransfer (inst : InstId) (producer consumer : Scope)
  | unsupportedLoop (block : BlockId)
  /-- A phi has no value for a block from which control arrives. -/
  | missingIncoming (inst : InstId) (block : BlockId)
  deriving DecidableEq

namespace Problem

def note (problems : List Problem) (p : Problem) : List Problem :=
  if problems.contains p then problems else problems ++ [p]

end Problem

end Stagewise
