import Mathlib.Data.List.Forall2
import Mathlib.Logic.Function.Basic
import Stagewise.TypePool

namespace Stagewise

/-- A value of a run: one without parts, or the lanes of a vector, the elements of an array or the
fields of a record. -/
inductive Datum (α : Type)
  | blank
  | scalar (a : α)
  | node (parts : List (Datum α))

namespace Datum

variable {α : Type}

def parts : Datum α → List (Datum α)
  | .node parts => parts
  | _ => []

def part (d : Datum α) (k : Nat) : Datum α := d.parts[k]?.getD .blank

def get (d : Datum α) : List Nat → Datum α
  | [] => d
  | k :: path => (d.part k).get path

def put (v : Datum α) : List Nat → Datum α → Datum α
  | [], _ => v
  | k :: path, .node parts => .node (parts.modify k (put v path))
  | _ :: _, d => d

def shuffle (a b : Datum α) (mask : List Nat) : Datum α :=
  .node (mask.map fun k => (a.parts ++ b.parts)[k]?.getD .blank)

def Has : List Nat → Datum α → Prop
  | [], _ => True
  | k :: path, d => ∃ x, d.parts[k]? = some x ∧ x.Has path

/-- A value has as many parts as its type says, and so have its parts. -/
inductive HasType (types : TypePool) : Datum α → TypeId → Prop
  | struct {ty : TypeId} {fields : List TypeId} {packed : Bool} {parts : List (Datum α)} :
      types.get ty = .struct fields packed → List.Forall₂ (HasType types) parts fields →
      HasType types (.node parts) ty
  | array {ty elem : TypeId} {len : Nat} {parts : List (Datum α)} :
      types.get ty = .array elem len → parts.length = len →
      (∀ x ∈ parts, HasType types x elem) → HasType types (.node parts) ty
  | vector {ty elem : TypeId} {len : Nat} {parts : List (Datum α)} :
      types.get ty = .vector elem len → parts.length = len →
      (∀ x ∈ parts, HasType types x elem) → HasType types (.node parts) ty
  | other {ty : TypeId} (d : Datum α) : (∀ fields packed, types.get ty ≠ .struct fields packed) →
      (∀ elem len, types.get ty ≠ .array elem len) →
      (∀ elem len, types.get ty ≠ .vector elem len) → HasType types d ty

def fits (types : TypePool) : Nat → Datum α → TypeId → Bool
  | 0, _, _ => false
  | depth + 1, d, ty =>
    match types.get ty, d with
    | .struct fields _, .node parts => parts.length == fields.length &&
        (parts.zip fields).all fun x => x.1.fits types depth x.2
    | .array elem len, .node parts => parts.length == len && parts.all (·.fits types depth elem)
    | .vector elem len, .node parts => parts.length == len && parts.all (·.fits types depth elem)
    | .struct _ _, _ => false
    | .array _ _, _ => false
    | .vector _ _, _ => false
    | _, _ => true

theorem hasType_of_fits {types : TypePool} {depth : Nat} {d : Datum α} {ty : TypeId}
    (h : d.fits types depth ty = true) : d.HasType types ty := by
  induction depth generalizing d ty with
  | zero => cases h
  | succ depth ih =>
    unfold fits at h
    split at h
    · next fields packed parts hty =>
      rw [Bool.and_eq_true, beq_iff_eq, List.all_eq_true] at h
      refine .struct hty (List.forall₂_iff_zip.mpr ⟨h.1, fun hx => ih (h.2 _ hx)⟩)
    · next elem len parts hty =>
      rw [Bool.and_eq_true, beq_iff_eq, List.all_eq_true] at h
      exact .array hty h.1 fun x hx => ih (h.2 x hx)
    · next elem len parts hty =>
      rw [Bool.and_eq_true, beq_iff_eq, List.all_eq_true] at h
      exact .vector hty h.1 fun x hx => ih (h.2 x hx)
    · cases h
    · cases h
    · cases h
    · next hs ha hv _ _ _ => exact .other _ hs ha hv

theorem part_shuffle_of_zero {a b : Datum α} {mask : List Nat} (h : ∀ j ∈ mask, j = 0) {k : Nat}
    (hk : k < mask.length) : (shuffle a b mask).part k = (a.parts ++ b.parts)[0]?.getD .blank := by
  have hz : mask[k]? = some 0 := by
    rw [List.getElem?_eq_getElem hk, h _ (List.getElem_mem hk)]
  simp only [shuffle, part, parts, List.getElem?_map, hz, Option.map_some, Option.getD_some]

theorem put_get (d : Datum α) (path : List Nat) : put (d.get path) path d = d := by
  induction path generalizing d with
  | nil => rfl
  | cons k path ih =>
    cases d with
    | blank => rfl
    | scalar a => rfl
    | node parts =>
      have hp : parts.modify k (put ((node parts).get (k :: path)) path) = parts := by
        apply List.ext_getElem?
        intro j
        rw [List.getElem?_modify]
        cases hj : parts[j]? with
        | none => rfl
        | some x =>
          by_cases hk : k = j
          · subst hk
            have hpa : (node parts).get (k :: path) = x.get path := by
              simp [get, part, Datum.parts, hj]
            simp [hpa, ih]
          · simp [hk]
      rw [put, hp]

theorem get_put {d : Datum α} {path : List Nat} (v : Datum α) (h : d.Has path) :
    (put v path d).get path = v := by
  induction path generalizing d with
  | nil => rfl
  | cons k path ih =>
    obtain ⟨x, hx, hp⟩ := h
    cases d with
    | blank | scalar a => simp [parts] at hx
    | node parts =>
      have hpa : (node (parts.modify k (put v path))).part k = put v path x := by
        simp only [Datum.parts] at hx
        simp [part, Datum.parts, hx]
      rw [put, get, hpa]
      exact ih hp

section Copy

variable {d t : Datum α} {q : List Nat}

theorem parts_put (v : Datum α) (k : Nat) (path : List Nat) (d : Datum α) :
    (put v (k :: path) d).parts = d.parts.modify k (put v path) := by
  cases d with
  | blank | scalar a => simp [put, parts]
  | node parts => rfl

theorem get_put_copy (p : List Nat) (h : d.get q = t.get q) :
    (put (t.get p) p d).get q = t.get q := by
  induction p generalizing d t q with
  | nil => rfl
  | cons k p ih =>
    cases q with
    | nil =>
      obtain rfl : d = t := h
      rw [put_get]
    | cons j q =>
      show ((put (t.get (k :: p)) (k :: p) d).part j).get q = (t.part j).get q
      have hd : (d.part j).get q = (t.part j).get q := h
      rw [part, parts_put, List.getElem?_modify]
      cases hj : d.parts[j]? with
      | none => simpa [part, hj] using hd
      | some x =>
        have hx : d.part j = x := by simp [part, hj]
        rw [hx] at hd
        by_cases hk : k = j
        · subst hk
          simpa [get] using ih hd
        · simpa [hk] using hd

theorem has_put_copy (p : List Nat) (hd : d.Has q) (ht : t.Has q) : (put (t.get p) p d).Has q := by
  induction p generalizing d t q with
  | nil => exact ht
  | cons k p ih =>
    cases q with
    | nil => trivial
    | cons j q =>
      obtain ⟨x, hx, hxq⟩ := hd
      obtain ⟨y, hy, hyq⟩ := ht
      by_cases hk : k = j
      · subst hk
        have hp : t.get (k :: p) = y.get p := by simp [get, part, hy]
        exact ⟨put (y.get p) p x, by rw [parts_put, List.getElem?_modify, hx, hp]; simp,
          ih hxq hyq⟩
      · exact ⟨x, by rw [parts_put, List.getElem?_modify, hx]; simp [hk], hxq⟩

end Copy

end Datum

structure Place where
  binding : String
  path : List Nat

abbrev Memory (α : Type) := String → Datum α

namespace Memory

variable {α : Type}

def read (m : Memory α) (x : Place) : Datum α := (m x.binding).get x.path

def write (m : Memory α) (x : Place) (v : Datum α) : Memory α :=
  Function.update m x.binding (Datum.put v x.path (m x.binding))

variable {m : Memory α} {x : Place} {y : Place}

theorem write_ne {name : String} (v : Datum α) (h : name ≠ x.binding) :
    m.write x v name = m name := Function.update_of_ne h ..

theorem write_self (m : Memory α) (x : Place) (v : Datum α) :
    m.write x v x.binding = Datum.put v x.path (m x.binding) := Function.update_self ..

theorem read_write_copy {t : Memory α} (x : Place) (h : m.read y = t.read y) :
    (m.write x (t.read x)).read y = t.read y := by
  by_cases hn : y.binding = x.binding
  · simp only [read, hn] at h ⊢
    rw [write_self]
    exact Datum.get_put_copy x.path h
  · rw [read, write_ne _ hn]
    exact h

theorem has_write_copy {t : Memory α} (x : Place) (hm : (m y.binding).Has y.path)
    (ht : (t y.binding).Has y.path) : ((m.write x (t.read x)) y.binding).Has y.path := by
  by_cases hn : y.binding = x.binding
  · rw [hn] at hm ht ⊢
    rw [write_self]
    exact Datum.has_put_copy x.path hm ht
  · rw [write_ne _ hn]
    exact hm

theorem read_write_self (v : Datum α) (h : (m x.binding).Has x.path) :
    (m.write x v).read x = v := by
  rw [read, write_self]
  exact Datum.get_put v h

end Memory

end Stagewise
