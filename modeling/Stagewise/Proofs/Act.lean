import Mathlib.Data.List.Forall2
import Stagewise.Fault

/-!
Runs of computations that may stop with a fault. `Act.Sat E x s Q` says that `x`, run from the state
`s`, ends in a result and a state with `Q`, or stops with a fault with `E`.
-/

namespace Stagewise

@[simp] theorem ok_bind {α β : Type} (a : α) (f : α → Except Fault β) :
    ((.ok a : Except Fault α) >>= f) = f a := rfl

@[simp] theorem error_bind {α β : Type} (e : Fault) (f : α → Except Fault β) :
    ((.error e : Except Fault α) >>= f) = .error e := rfl

theorem bind_eq_ok {α β : Type} {x : Except Fault α} {f : α → Except Fault β} {b : β}
    (h : x >>= f = .ok b) : ∃ a, x = .ok a ∧ f a = .ok b := by
  cases x with
  | error e => cases h
  | ok a => exact ⟨a, rfl, h⟩

theorem exists_ok_of_any {α : Type} {x : Except Fault α} {test : α → Bool}
    (h : x.toOption.any test = true) : ∃ a, x = .ok a ∧ test a = true := by
  cases x with
  | error e => cases h
  | ok a => exact ⟨a, rfl, h⟩

theorem exists_ok_of_isOk {α : Type} {x : Except Fault α} (h : x.isOk = true) : ∃ a, x = .ok a := by
  cases x with
  | error e => cases h
  | ok a => exact ⟨a, rfl⟩

namespace Act

variable {σ α β : Type}

def Sat (E : Fault → Prop) (x : Act σ α) (s : σ) (Q : α → σ → Prop) : Prop :=
  match x.run s with
  | (.ok a, t) => Q a t
  | (.error e, _) => E e

abbrev Never : Fault → Prop := fun _ => False

abbrev Any : Fault → Prop := fun _ => True

theorem run_bind (x : Act σ α) (f : α → Act σ β) (s : σ) :
    (x >>= f).run s = match x.run s with
      | (.ok a, t) => (f a).run t
      | (.error e, t) => (.error e, t) := by
  show ((ExceptT.bindCont f =<< x.run) : StateM σ _) s = _
  show (match x.run s with | (r, t) => ExceptT.bindCont f r t) = _
  rcases x.run s with ⟨_ | _, _⟩ <;> rfl

variable {E : Fault → Prop} {s : σ} {Q R : α → σ → Prop}

variable {x : Act σ α} {f : α → Act σ β} {P : σ → Prop} {xs : List α}

@[simp] theorem sat_bind {Q : β → σ → Prop} :
    Sat E (x >>= f) s Q ↔ Sat E x s fun a t => Sat E (f a) t Q := by
  unfold Sat
  rw [run_bind]
  rcases x.run s with ⟨_ | _, _⟩ <;> rfl

@[simp] theorem sat_pure {a : α} : Sat E (pure a : Act σ α) s Q ↔ Q a s := Iff.rfl

@[simp] theorem sat_throw {e : Fault} : Sat E (throw e : Act σ α) s Q ↔ E e := Iff.rfl

@[simp] theorem sat_get {Q : σ → σ → Prop} : Sat E (get : Act σ σ) s Q ↔ Q s s := Iff.rfl

@[simp] theorem sat_set {t : σ} {Q : PUnit → σ → Prop} :
    Sat E (set t : Act σ PUnit) s Q ↔ Q ⟨⟩ t := Iff.rfl

@[simp] theorem sat_modify {f : σ → σ} {Q : PUnit → σ → Prop} :
    Sat E (modify f : Act σ PUnit) s Q ↔ Q ⟨⟩ (f s) := Iff.rfl

@[simp] theorem sat_ofOption {o : Option α} :
    Sat E (ofOption o : Act σ α) s Q ↔ (∀ a, o = some a → Q a s) ∧ (o = none → E .dangling) := by
  cases o <;> simp [ofOption]

@[simp] theorem sat_ofExcept {x : Except Fault α} :
    Sat E (ofExcept x : Act σ α) s Q ↔ (∀ a, x = .ok a → Q a s) ∧ (∀ e, x = .error e → E e) := by
  cases x <;> simp [ofExcept]

theorem Sat.mono (h : Sat E x s Q) (hQ : ∀ a t, Q a t → R a t) : Sat E x s R := by
  unfold Sat at *
  generalize x.run s = r at *
  rcases r with ⟨_ | _, _⟩
  · exact h
  · exact hQ _ _ h

theorem Sat.and (h : Sat E x s Q) (h' : Sat Any x s R) :
    Sat E x s fun a t => Q a t ∧ R a t := by
  unfold Sat at *
  generalize x.run s = r at *
  rcases r with ⟨_ | _, _⟩
  · exact h
  · exact ⟨h, h'⟩

theorem Sat.of_run {a : α} {t : σ} (h : Sat E x s Q) (hr : x.run s = (.ok a, t)) :
    Q a t := by
  unfold Sat at h
  rwa [hr] at h

theorem sat_any_iff :
    Sat Any x s Q ↔ ∀ a t, x.run s = (.ok a, t) → Q a t := by
  refine ⟨fun h a t hr => h.of_run hr, fun h => ?_⟩
  unfold Sat
  rcases hx : x.run s with ⟨_ | _, _⟩
  · trivial
  · exact h _ _ hx

theorem sat_never_iff :
    Sat Never x s Q ↔ ∃ a t, x.run s = (.ok a, t) ∧ Q a t := by
  constructor
  · intro h
    unfold Sat at h
    generalize x.run s = r at *
    rcases r with ⟨_ | a, t⟩
    · exact h.elim
    · exact ⟨a, t, rfl, h⟩
  · rintro ⟨a, t, hr, hq⟩
    unfold Sat
    rw [hr]
    exact hq

theorem exists_run_of_isOk (h : (x.run s).1.isOk = true) :
    ∃ a, x.run s = (.ok a, (x.run s).2) := by
  rcases hx : x.run s with ⟨_ | a, t⟩
  · rw [hx] at h
    cases h
  · exact ⟨a, rfl⟩

theorem sat_forM {f : α → Act σ PUnit} (h : P s)
    (step : ∀ x ∈ xs, ∀ s, P s → Sat E (f x) s fun _ t => P t) :
    Sat E (xs.forM f) s fun _ t => P t := by
  induction xs generalizing s with
  | nil => exact h
  | cons x xs ih =>
    show Sat E (f x >>= fun _ => xs.forM f) s _
    rw [sat_bind]
    refine (step x (by simp) s h).mono fun _ t ht => ?_
    exact ih ht fun y hy => step y (by simp [hy])

theorem sat_mapM {R : α → β → Prop} (h : P s)
    (step : ∀ x ∈ xs, ∀ s, P s → Sat E (f x) s fun b t => P t ∧ R x b) :
    Sat E (xs.mapM f) s fun ys t => P t ∧ List.Forall₂ R xs ys := by
  induction xs generalizing s with
  | nil => simpa using h
  | cons x xs ih =>
    simp only [List.mapM_cons, sat_bind, sat_pure]
    refine (step x (by simp) s h).mono fun b t ht => ?_
    refine (ih ht.1 fun y hy => step y (by simp [hy])).mono fun ys u hu => ?_
    exact ⟨hu.1, List.Forall₂.cons ht.2 hu.2⟩

/-- What a run from a state comes to, a fault included, with the state that it leaves. -/
def Ends (x : Act σ α) (s : σ) (Q : Except Fault α → σ → Prop) : Prop :=
  Q (x.run s).1 (x.run s).2

section Ends

variable {Q : Except Fault α → σ → Prop}

theorem ends_bind {x : Act σ α} {f : α → Act σ β} {Q : Except Fault β → σ → Prop} :
    Ends (x >>= f) s Q ↔ Ends x s fun r t =>
      match r with
      | .ok a => Ends (f a) t Q
      | .error e => Q (.error e) t := by
  unfold Ends
  rw [run_bind]
  rcases x.run s with ⟨_ | _, _⟩ <;> rfl

theorem ends_get {Q : Except Fault σ → σ → Prop} :
    Ends (get : Act σ σ) s Q ↔ Q (.ok s) s := Iff.rfl

theorem ends_modify {f : σ → σ} {Q : Except Fault PUnit → σ → Prop} :
    Ends (modify f : Act σ PUnit) s Q ↔ Q (.ok ⟨⟩) (f s) := Iff.rfl

theorem ends_ofExcept {x : Except Fault α} : Ends (ofExcept x : Act σ α) s Q ↔ Q x s := by
  cases x <;> rfl

theorem ends_ofOption {o : Option α} :
    Ends (ofOption o : Act σ α) s Q ↔ Q (orDangling o) s := by
  cases o <;> rfl

theorem Ends.mono {x : Act σ α} {R : Except Fault α → σ → Prop} (h : Ends x s Q)
    (hQ : ∀ r t, Q r t → R r t) : Ends x s R := hQ _ _ h

end Ends

end Act

end Stagewise
