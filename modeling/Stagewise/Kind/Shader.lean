import Stagewise.Split

namespace Stagewise

namespace Shader

def material : Scope := .ofNat 0
def transform : Scope := .ofNat 1
def vertex : Scope := .ofNat 2
def pixel : Scope := .ofNat 3

def usedByMaterial : UsageFlags := .ofNat 1
def usedByTransform : UsageFlags := .ofNat 2
def usedByVertex : UsageFlags := .ofNat 4
def usedByPixel : UsageFlags := .ofNat 8

def input : UsageFlags := .ofNat 16

/-- The function that samples a texture; functions whose names start so sample one too. -/
def sample : String := "sample"

structure Options where
  /-- Keeps as much work as possible out of the pixel stage. -/
  avoidPixel : Bool
  /-- The side that faces the viewer is the same for a whole draw call. -/
  uniformFacing : Bool
  flipY : Bool
  deriving DecidableEq

/-- When shapes with a shader have to be sorted by depth. -/
inductive SortMode
  | never
  | always
  | material
  deriving DecidableEq

/-- How the calls of a shader are placed. Arguments of `vs` are work of the vertex stage, unless
pixel work is avoided; then samples are work of the pixel stage. -/
def classifyCall (avoidPixel : Bool) (site : CallSite) (flags : UsageFlags) : CallRule :=
  if avoidPixel then ⟨flags, some (if site.name.startsWith sample then pixel else material)⟩
  else if site.name = "vs" then ⟨(flags.diff usedByPixel).union usedByVertex, some material⟩
  else ⟨flags, some material⟩

def placeValue (avoidPixel : Bool) (info : ValueInfo) (scope : Option Scope) : Option Scope :=
  let scope := Scope.later info.scope scope
  if !avoidPixel && info.flags == usedByPixel && scope == some vertex then some pixel else scope

def strategy (avoidPixel : Bool) : Strategy := ⟨classifyCall avoidPixel, placeValue avoidPixel⟩

def table (o : Options) : ScopeTable where
  scopes := ["material", "transform", "vertex", "pixel"]
  roots := [
    ⟨"viewMatrix", material, input⟩,
    ⟨"projectionMatrix", material, input⟩,
    ⟨"viewProjectionMatrix", material, input⟩,
    ⟨"viewport", material, input⟩,
    ⟨"deformer", material, input⟩,
    ⟨"material", material, input⟩,
    ⟨"matrix", transform, input⟩,
    ⟨"objectId", transform, input⟩,
    ⟨"vertex", vertex, input⟩,
    ⟨"s_o", vertex, input⟩,
    ⟨"frontFacing", if o.avoidPixel && o.uniformFacing then vertex else pixel, input⟩,
    ⟨"pointCoord", pixel, input⟩,
    ⟨"fragCoord", pixel, input⟩]
  sinks := [
    ⟨"flip", transform, usedByTransform⟩,
    ⟨"pPosition", vertex, usedByVertex⟩,
    ⟨"vPosition", vertex, usedByVertex⟩,
    ⟨"pointSize", vertex, usedByVertex⟩,
    ⟨"discard", pixel, usedByPixel⟩,
    ⟨"output", pixel, usedByPixel⟩,
    ⟨"outputs", pixel, usedByPixel⟩]
  transfers := [
    ⟨material, transform, "m2t", false⟩,
    ⟨material, vertex, "m2v", false⟩,
    ⟨material, pixel, "m2p", false⟩,
    ⟨material, pixel, "m2po", true⟩,
    ⟨transform, vertex, "t2v", false⟩,
    ⟨transform, pixel, "t2p", false⟩,
    ⟨vertex, pixel, "v2p", false⟩]

/-- When to sort, if the material stage does not decide: never for a key that is a constant zero or
that nothing writes. -/
def sortModeOf : Option SinkWrite → SortMode
  | none => .never
  | some ⟨.const c, _⟩ => if c.isZero then .never else .always
  | some _ => .always

/-- Places the sort key in the material stage. If it does not fit there the classification is as
before, and only the mode is told. -/
def classifySort (c : Classifier) : Act Classifier.State SortMode := do
  let before ← c.snapshot
  let write ← c.classifySink "sort" material usedByMaterial
  if write.any (·.scope == some material) then return .material
  else
    c.restore before
    return sortModeOf write

def sampleArgs? (target : FuncId) : Operation → Option (List Value)
  | .call (.direct callee) args => if callee = target && 2 ≤ args.length then some args else none
  | _ => none

/-- Puts the flip of a coordinate before a sample: its second lane, one less that, and the
coordinate with the difference in its second lane. -/
def flipCoordinate (p : Program) (types : TypePool) (source : Function) (target : FuncId)
    (out : Function) (i : InstId) : Except Fault Function :=
  match source.insts[i]?.bind (fun inst => sampleArgs? target inst.op) with
  | some args => do
    let coord ← orDangling args[1]?
    let ty ← orDangling (p.valueType? source coord)
    let elem := (types.element ty).getD TypeId.float
    let lane := Value.const (.int TypeId.int 1)
    let (v, out) := out.insertBefore i elem (.extract coord lane)
    let (flipped, out) := out.insertBefore i elem
      (.binary .sub (.const (.float elem Binary64.one)) (.inst v))
    let (new, out) := out.insertBefore i ty (.insert coord (.inst flipped) lane)
    return out.setOp i (.call (.direct target) (args.set 1 (.inst new)))
  | none => .ok out

/-- The function with the second lane `v` of the coordinate of every sample replaced by `1 - v`. -/
def flipY (p : Program) (types : TypePool) (f : Function) : Except Fault Function :=
  match p.declNamed? sample with
  | some target => f.instIds.foldlM (flipCoordinate p types f target) f
  | none => .ok f

def split (o : Options) (p : Program) (types : TypePool) (f : Function) :
    Except Fault (SplitOutput × SortMode × TypePool) := do
  let f ← if o.flipY then flipY p types f else pure f
  splitWith p types f (table o) (strategy o.avoidPixel) classifySort

end Shader

end Stagewise
