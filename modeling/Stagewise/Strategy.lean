import Stagewise.Scope.Usage
import Stagewise.Value

namespace Stagewise

structure CallSite where
  inst : InstId
  name : String
  args : List Value

/-- How a call is placed: the uses of its arguments, and the earliest scope that it may have before
those of its arguments are looked at. -/
structure CallRule where
  argFlags : UsageFlags
  floor : Option Scope
  deriving DecidableEq

/-- What a kind of program decides about placing its values. -/
structure Strategy where
  classifyCall : CallSite → UsageFlags → CallRule
  /-- The scope of an instruction, from what is known of it and from the scope of its operands. It
  may be later than both, never earlier than one of them. -/
  placeValue : ValueInfo → Option Scope → Option Scope

namespace Strategy

def plainCall (flags : UsageFlags) : CallRule := ⟨flags, some (.ofNat 0)⟩

def plain : Strategy where
  classifyCall _ flags := plainCall flags
  placeValue info scope := Scope.later info.scope scope

structure Settings where
  /-- The calls that are treated specially; all calls if there is no name. -/
  call : Option String
  argAdd : UsageFlags
  argRemove : UsageFlags
  floor : Option Scope
  /-- Values with one of these uses are placed no earlier than `raiseTo`. -/
  raiseFlags : UsageFlags
  raiseTo : Option Scope
  /-- Values with one of these uses are placed no later than `clamp`, if there is one. -/
  clampFlags : UsageFlags
  clamp : Option Scope

def adjusted (c : Settings) : Strategy where
  classifyCall site flags :=
    if c.call.any (· != site.name) then plainCall flags
    else ⟨(flags.diff c.argRemove).union c.argAdd, c.floor⟩
  placeValue info scope :=
    let placed := Scope.later info.scope scope
    let raised :=
      if info.flags.meets c.raiseFlags then Scope.later placed c.raiseTo else placed
    if c.clamp.isSome && info.flags.meets c.clampFlags then Scope.earlier raised c.clamp else raised

end Strategy

end Stagewise
