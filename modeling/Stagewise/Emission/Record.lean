import Stagewise.Emission.Operand

namespace Stagewise

structure TransferLayout where
  name : String
  src : Scope
  dst : Scope
  objects : Bool
  record : TypeId
  fields : List TypeId
  slots : List SlotType
  deriving DecidableEq

namespace TypePool

def internArrays (p : TypePool) : List ArraySlot → List TypeId × TypePool
  | [] => ([], p)
  | slot :: rest =>
    let (id, p) := p.intern (.array slot.elem slot.len)
    let (ids, p) := p.internArrays rest
    (id :: ids, p)

end TypePool

namespace Draft

/-- Stores a value into a field at the end of the block that makes it, or only its first lane. -/
def storeField (d : Draft) (record : GlobalId) (field : Nat) (slot : ValueSlot) (v : Value) : Draft :=
  let block := match v with
    | .inst i => d.builder.func.insts[i]?.elim d.entry Inst.block
    | _ => d.entry
  let (v, d) :=
    if slot.scalarized then
      let (lane, d) := d.append block slot.ty (.extract v (.const (.int TypeId.int 0)))
      (.inst lane, d)
    else (v, d)
  (d.append block TypeId.void (.store v (.member record [field]))).2

/-- Copies the elements at one position of an array slot, at the start of the entry block. -/
def copyPosition (record : GlobalId) (field : Nat) (slot : ArraySlot) (g : GlobalId) (d : Draft)
    (position : Nat) : Draft :=
  let path := slot.path.map (·.getD position)
  let (element, func) :=
    d.builder.func.insertAt d.entry (2 * position) slot.elem (.load (.member g path))
  let (_, func) := func.insertAt d.entry (2 * position + 1) TypeId.void
    (.store (.inst element) (.member record [field, position]))
  { d with builder := { d.builder with func := func } }

def copyElements (d : Draft) (record : GlobalId) (field : Nat) (slot : ArraySlot) (g : GlobalId) :
    Draft :=
  (List.range slot.len).foldl (copyPosition record field slot g) d

def patchReads (d : Draft) (record : GlobalId) (field : Nat) (slot : ArraySlot) : Draft :=
  slot.reads.foldl
    (fun d r => d.setOp r.1 (.load (.element record [.fixed field, .dynamic r.2]))) d

end Draft

namespace Source

def storeValue (key : RecordKey) (record : GlobalId) (field : Nat) (slot : ValueSlot) :
    Act Emission Unit := do
  match (← Emission.draft key.src).copies.lookup slot.source with
  | some v => Emission.updateDraft key.src (·.storeField record field slot v)
  | none => throw (.missingCopy slot.source key.src)

def wireValues (key : RecordKey) (stored loaded : GlobalId) :
    Nat → List ValueSlot → Act Emission Unit
  | _, [] => return ()
  | field, slot :: rest => do
    storeValue key stored field slot
    Emission.updateDraft key.dst (·.setOp slot.read (.load (.member loaded [field])))
    wireValues key stored loaded (field + 1) rest

def wireArrays (src : Source) (key : RecordKey) (stored loaded : GlobalId) :
    Nat → List ArraySlot → Act Emission Unit
  | _, [] => return ()
  | field, slot :: rest => do
    let g ← src.getGlobal key.src slot.global
    Emission.updateDraft key.src (·.copyElements stored field slot g)
    Emission.updateDraft key.dst (·.patchReads loaded field slot)
    src.wireArrays key stored loaded (field + 1) rest

/-- Lays out a record under a name and wires both of its scopes to it. A record without slots is not
declared. -/
def layOut (src : Source) (key : RecordKey) (name : String) :
    Act Emission (Option TransferLayout) := do
  modify fun s => { s with ledger := s.ledger.markFixed key }
  let s ← get
  let values := s.ledger.valuesOf s.types key
  let arrays := s.ledger.arraysOf s.types key
  if values.isEmpty && arrays.isEmpty then return none
  else
    let (arrayTypes, types) := s.types.internArrays arrays
    let fields := values.map ValueSlot.ty ++ arrayTypes
    let (record, types) := types.intern (.struct fields true)
    set { s with types := types }
    let stored ← Emission.editDraft key.src (·.declareRecord (.plain name record))
    let loaded ← Emission.editDraft key.dst (·.declareRecord (.plain name record))
    wireValues key stored loaded 0 values
    src.wireArrays key stored loaded values.length arrays
    return some ⟨name, key.src, key.dst, key.objects, record, fields,
      fields.map (SlotType.ofType types)⟩

end Source

end Stagewise
