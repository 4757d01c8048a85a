import Mathlib.Data.List.Basic
import Stagewise.Interner
import Stagewise.TypePool

namespace Stagewise

/-- Items in the order of their arrival, and a map from each of them to its number. -/
structure Index (α : Type) [BEq α] [Hashable α] where
  items : Array α
  numbers : Std.HashMap α Nat

namespace Index

section Generic

variable {α : Type} [BEq α] [Hashable α]

def empty : Index α := ⟨#[], ∅⟩

def find? (t : Index α) (a : α) : Option Nat := t.numbers[a]?

def intern (t : Index α) (a : α) : Nat × Index α :=
  match t.find? a with
  | some n => (n, t)
  | none => (t.items.size, ⟨t.items.push a, t.numbers.insert a t.items.size⟩)

/-- The map finds what a search through the items finds. -/
def Searches (t : Index α) : Prop := ∀ a, t.find? a = t.items.findIdx? (· == a)

theorem searches_empty : (empty : Index α).Searches := by
  intro a
  simp [find?, empty]

variable [LawfulBEq α] [LawfulHashable α] {t : Index α}

/-- A new item is inserted under the number of its place, and no search for another item gets there
before the end. -/
theorem Searches.intern (h : t.Searches) (a : α) : (t.intern a).2.Searches := by
  unfold Index.intern
  split
  · exact h
  · next hnew =>
    intro b
    show (t.numbers.insert a t.items.size)[b]? = (t.items.push a).findIdx? (· == b)
    rw [Std.HashMap.getElem?_insert, Array.findIdx?_push, ← h b]
    by_cases hab : a = b
    · subst hab
      simp [hnew]
    · simp [hab, find?]

end Generic

/-- A view of a state that every step of interning commutes with, as long as some invariant holds,
commutes with interning any number of items. -/
theorem internEach_view {α σ τ : Type} {f : σ → α → Nat × σ} {g : τ → α → Nat × τ} {Inv : σ → Prop}
    {view : σ → τ} (hinv : ∀ s a, Inv s → Inv (f s a).2)
    (hview : ∀ s a, Inv s → g (view s) a = ((f s a).1, view (f s a).2)) {s : σ} (hs : Inv s)
    (items : List α) : Inv (internEach f s items).2 ∧
      internEach g (view s) items = ((internEach f s items).1, view (internEach f s items).2) := by
  induction items generalizing s with
  | nil => exact ⟨hs, rfl⟩
  | cons a items ih =>
    obtain ⟨hend, hrun⟩ := ih (hinv s a hs)
    refine ⟨hend, ?_⟩
    simp only [internEach, hview s a hs, hrun]

def pool (t : Index Ty) : TypePool := ⟨t.items⟩

def texts (t : Index String) : Interner := ⟨t.items.toList⟩

theorem Searches.intern_pool {t : Index Ty} (h : t.Searches) (ty : Ty) :
    t.pool.intern ty = ((t.intern ty).1, (t.intern ty).2.pool) := by
  have hfind : t.pool.types.findIdx? (· == ty) = t.find? ty := (h ty).symm
  unfold TypePool.intern Index.intern
  rw [hfind]
  cases t.find? ty <;> rfl

theorem Searches.find?_texts {t : Index String} (h : t.Searches) (text : String) :
    t.texts.find? text = t.find? text := by
  rw [h text, Interner.find?, texts, ← List.findIdx?_toArray, Array.toArray_toList]

theorem Searches.intern_texts {t : Index String} (h : t.Searches) (text : String) :
    t.texts.intern text = ((t.intern text).1, (t.intern text).2.texts) := by
  unfold Interner.intern Index.intern
  rw [h.find?_texts]
  cases t.find? text with
  | some n => rfl
  | none => simp [texts, Interner.size]

/-- An index that starts out with the primitive types numbers types as a pool does, whichever are
asked for, and its map always finds what a search through the pool finds. -/
theorem internEach_types (requests : List Ty) :
    let start : Index Ty := (internEach intern empty Ty.primitives).2
    let run := internEach intern start requests
    internEach TypePool.intern .empty requests = (run.1, run.2.pool) ∧
      ∀ ty, run.2.find? ty = run.2.pool.types.findIdx? (· == ty) := by
  intro start run
  have hview := @internEach_view Ty _ _ intern TypePool.intern Searches pool
    (fun _ ty h => h.intern ty) (fun _ ty h => h.intern_pool ty)
  obtain ⟨hstart, hprimitives⟩ := hview searches_empty Ty.primitives
  obtain ⟨hsearches, hrun⟩ := hview hstart requests
  have hempty : start.pool = .empty := calc
    start.pool = (internEach TypePool.intern ⟨#[]⟩ Ty.primitives).2 :=
      (congrArg Prod.snd hprimitives).symm
    _ = .empty := by
      simp [internEach, TypePool.intern, TypePool.empty, Ty.primitives, List.findIdx?_cons]
  rw [hempty] at hrun
  exact ⟨hrun, hsearches⟩

/-- An index that starts out with the empty text numbers texts as an interner does. -/
theorem internEach_texts (requests : List String) :
    let start : Index String := (internEach intern empty [""]).2
    let run := internEach intern start requests
    internEach Interner.intern .empty requests = (run.1, run.2.texts) ∧
      ∀ text, run.2.find? text = run.2.texts.find? text := by
  intro start run
  have hview := @internEach_view String _ _ intern Interner.intern Searches texts
    (fun _ text h => h.intern text) (fun _ text h => h.intern_texts text)
  obtain ⟨hstart, hfirst⟩ := hview searches_empty [""]
  obtain ⟨hsearches, hrun⟩ := hview hstart requests
  have hempty : start.texts = .empty := (congrArg Prod.snd hfirst).symm
  rw [hempty] at hrun
  exact ⟨hrun, fun text => (hsearches.find?_texts text).symm⟩

end Index

end Stagewise
