import Mathlib.Logic.Relation
import Stagewise.Proofs.Classification.Progress
import Stagewise.Proofs.Classification.Settling

namespace Stagewise

open Relation

namespace ValueInfo

theorem isUsed_union {flags : UsageFlags} (x : ValueInfo) (h : flags.isEmpty = false) :
    ({ x with flags := x.flags.union flags } : ValueInfo).isUsed = true := by
  simp [isUsed, UsageFlags.isEmpty_union, h]

theorem usedScope_of_isUsed {x : ValueInfo} (h : x.isUsed = true) : x.usedScope = x.scope :=
  if_pos h

end ValueInfo

namespace Classification

variable {t : Classification} {v : Value} {n : Node} {x : Scope}

theorem valueScope_of_node (hv : v.node? = some n) (hu : (t.info n).isUsed = true) :
    t.valueScope v = (t.info n).scope := by
  cases v with
  | inst i | global g =>
    obtain rfl := Option.some.inj hv
    exact ValueInfo.usedScope_of_isUsed hu
  | const k => exact absurd hv (by simp [Value.node?])

end Classification

def Strategy.Lively (s : Strategy) : Prop :=
  ∀ site flags, flags.isEmpty = false → (s.classifyCall site flags).argFlags.isEmpty = false

theorem Strategy.Lively.of_plain {s : Strategy} (h : s = .plain) : s.Lively := by
  subst h
  exact fun _ _ hf => hf

namespace Classifier

variable {c : Classifier} {t t' : Classification} {w : Work} {work stack : List Work} {i : InstId}
  {n m : Node} {x : Scope}

theorem mem_leads_of_dependsOn (h : c.DependsOn n m) : m ∈ c.leads n := by
  cases n with
  | inst i =>
    simp only [DependsOn, dependencies] at h
    simp only [leads]
    cases hi : c.func.insts[i]? with
    | none => simp [hi] at h
    | some inst =>
      rw [hi] at h
      exact List.mem_append_left _ h
  | terminator b => exact List.mem_append_left _ h
  | block b | global g => exact h

section Founded

/-- Every placement of a table comes from an origin that the node depends on. -/
def Founded (c : Classifier) (O : Node → Scope → Prop) (t : Classification) : Prop :=
  ∀ n x, (t.info n).scope = some x → ∃ m, ReflTransGen c.DependsOn n m ∧ O m x

variable {O : Node → Scope → Prop}

theorem Founded.update (h : c.Founded O t)
    (hn : ∀ n x, (t'.info n).scope = some x → (t.info n).scope = some x ∨ O n x ∨
      ∃ m, c.DependsOn n m ∧ (t.info m).scope = some x) : c.Founded O t' := by
  intro n x hx
  rcases hn n x hx with hol | ho | ⟨m, hm, hs⟩
  · exact h n x hol
  · exact ⟨n, .refl, ho⟩
  · obtain ⟨k, hk, ho⟩ := h m x hs
    exact ⟨k, hk.head hm, ho⟩

theorem Founded.of_samePlaces (h : c.Founded O t) (hs : t.SamePlaces t') : c.Founded O t' :=
  h.update fun n _ hx => .inl (hs n ▸ hx)

theorem operation_dependsOn {inst : Inst} (hi : c.func.insts[i]? = some inst)
    (hn : n ∈ inst.op.dependencies) : c.DependsOn (.inst i) n := by
  show n ∈ (c.func.insts[i]?).elim [] _
  rw [hi]
  exact hn

/-- A strategy under which uses are passed on and nothing is lowered, and that adds only origins to the
scopes of dependencies: a value is put where it or one of its operands is, or where an origin of that
scope is one of the new, and the floors of calls are origins. -/
structure Respects (c : Classifier) (O : Node → Scope → Prop) : Prop where
  lively : c.strategy.Lively
  ascends : c.strategy.Ascends
  place : ∀ info computed x, c.strategy.placeValue info computed = some x →
    ∃ y, Scope.later info.scope computed = some y ∧ ∀ m, O m y → O m x
  floor : ∀ (i : InstId) (inst : Inst) callee args flags rule x, c.func.insts[i]? = some inst →
    inst.op = .call (.direct callee) args → c.callRule? i callee args flags = some rule →
    rule.floor = some x → O (.inst i) x

theorem Founded.put (hc : c.Respects O) {y : Option Scope} (hl : c.Lifts t m y)
    (h : c.Founded O t) : c.Founded O (put t m y) := by
  intro n x hx
  rcases hl.scope_eq_some hx with hx | ⟨rfl, rfl⟩
  · exact h n x hx
  rcases hl.source with hy | ⟨k, x', hk, hs, hy⟩ | ⟨j, inst, rfl, hi, hy⟩
  · exact h n x hy.symm
  · obtain ⟨m, hp, ho⟩ := h k x (hs.trans hy.symm)
    exact ⟨m, hp.head hk, ho⟩
  · obtain ⟨y, hpl, hne⟩ := hc.place _ _ x hy.symm
    obtain ⟨m, hp, ho⟩ : ∃ m, ReflTransGen c.DependsOn (.inst j) m ∧ O m y := by
      rcases Scope.later_cases (t.inst j).scope
        (c.operandScope t j inst.op (t.inst j).flags) with hl | hl <;> rw [hl] at hpl
      · exact h (.inst j) y hpl
      · rcases operandScope_eq_some hpl with
          ⟨n, hn, hs⟩ | ⟨callee, args, rule, hop, hr, hf⟩
        · obtain ⟨m, hp, ho⟩ := h n y hs
          exact ⟨m, hp.head (operation_dependsOn hi hn), ho⟩
        · exact ⟨_, .refl, hc.floor j inst callee args _ rule y hi hop hr hf⟩
    exact ⟨m, hp, hne m ho⟩

theorem founded_resolve (hc : c.Respects O) (h : c.Founded O t) : c.Founded O (c.resolve t).2 :=
  settle_invariant (fun _ _ _ hl h => h.put hc hl) _ (h.of_samePlaces (samePlaces_absorb c t))

end Founded

end Classifier

end Stagewise
