import Stagewise.Proofs.Classification.Forcing
import Stagewise.Proofs.Classification.Totality

namespace Stagewise

namespace ScopeTable

def sink? (t : ScopeTable) (name : String) : Option Endpoint :=
  t.sinks.reverse.find? (·.name == name)

def sinkScope? (t : ScopeTable) (name : String) : Option Scope := (t.sink? name).map Endpoint.scope

theorem sink?_eq_some {t : ScopeTable} {name : String} {e : Endpoint} (h : t.sink? name = some e) :
    e.name = name ∧ ∃ before after, t.sinks = before ++ e :: after ∧
      ∀ e' ∈ after, e'.name ≠ e.name := by
  obtain ⟨hn, after, before, heq, ha⟩ := List.find?_eq_some_iff_append.mp h
  have hn := beq_iff_eq.mp hn
  refine ⟨hn, before.reverse, after.reverse, ?_, fun e' he' heq' => ?_⟩
  · rw [← List.reverse_reverse t.sinks, heq]
    simp
  · have := ha e' (List.mem_reverse.mp he')
    rw [heq', hn] at this
    simp at this

end ScopeTable

namespace Classifier

variable {c : Classifier} {s s' : Session} {i : InstId} {info : ValueInfo} {site : SinkSite}
  {e : Endpoint}

theorem Responds.fixed (h : c.Responds (.sink e.name e.scope e.flags) s s')
    (hfi : s.state.table.Fits c.program c.func) :
    s'.state.table.Fits c.program c.func ∧
    (∀ site ∈ c.sinkSites e.name, c.Fixed s'.state.table site.inst ⟨some e.scope, e.flags⟩) ∧
    ∀ i info, c.Fixed s.state.table i info → (∀ site ∈ c.sinkSites e.name, site.inst ≠ i) →
      c.Fixed s'.state.table i info := by
  cases h with
  | sinkUnknown hn => exact ⟨hfi, by simp [hn], fun i info hf _ => hf⟩
  | @sink _ _ _ s s1 snaps hpr =>
    have hp : (c.pinSites e.name e.scope e.flags s.table).Fits c.program c.func :=
      fits_pinSites hfi
    have ha := advances_of_propagate hp hpr
    have hk : ∀ i info, c.Fixed (c.pinSites e.name e.scope e.flags s.table) i info →
        c.Fixed (c.settled s1).table i info :=
      fun i info hf => (resolve_steady c s1.table).fixed i info (ha.fixed hf)
    refine ⟨fits_resolve (ha.fits hp), fun site hs => ?_, fun i info hf hne => ?_⟩
    · exact hk _ _ (fixed_pins hfi (fun _ h => h) hs)
    · exact hk i info (hf.pins fun site hs heq => absurd heq.symm (hne site hs))

theorem Responses.keeps_fixed {name : String} {sinks : List Endpoint}
    (h : c.Responses (sinks.map fun e => .sink e.name e.scope e.flags) s s')
    (hfit : s.state.table.Fits c.program c.func) (hn : ∀ e ∈ sinks, e.name ≠ name)
    (hs : site ∈ c.sinkSites name) (hf : c.Fixed s.state.table site.inst info) :
    c.Fixed s'.state.table site.inst info := by
  induction sinks generalizing s with
  | nil =>
    cases h
    exact hf
  | cons e sinks ih =>
    cases h with
    | cons hfi hr =>
      obtain ⟨hf', -, hk⟩ := hfi.fixed hfit
      have hne := hn e List.mem_cons_self
      refine ih hr hf' (fun e' he' => hn e' (List.mem_cons_of_mem _ he'))
        (hk _ _ hf fun site' hs' => sinkSites_disjoint hs' hs hne)

theorem Responses.fixed {before after : List Endpoint}
    (h : c.Responses ((before ++ e :: after).map fun e => .sink e.name e.scope e.flags) s s')
    (hfi : s.state.table.Fits c.program c.func) (ha : ∀ e' ∈ after, e'.name ≠ e.name)
    (hs : site ∈ c.sinkSites e.name) :
    c.Fixed s'.state.table site.inst ⟨some e.scope, e.flags⟩ := by
  induction before generalizing s with
  | nil =>
    cases h with
    | cons hf hr =>
      obtain ⟨hf', hfix, -⟩ := hf.fixed hfi
      exact hr.keeps_fixed hf' ha hs (hfix site hs)
  | cons e' before ih =>
    cases h with
    | cons hf hr => exact ih hr (hf.fixed hfi).1

theorem sat_classifyTable_sink {table : ScopeTable} :
    Act.Sat Act.Any (c.classifyTable table (pure ())) c.initial fun _ s' =>
      ∀ name e, table.sink? name = some e → ∀ site ∈ c.sinkSites name,
        c.Fixed s'.table site.inst ⟨some e.scope, e.flags⟩ := by
  refine sat_classifyTable_responds.mono fun _ s' hs name e he site hsit => ?_
  obtain ⟨s1, hr, hsi⟩ := hs
  obtain ⟨rfl, before, after, heq, ha⟩ := ScopeTable.sink?_eq_some he
  obtain ⟨-, -, hf, -⟩ := hr.declares table.isRoot_declarations (initial_sound (n := 0)).fits
  rw [ScopeTable.demands, heq] at hsi
  exact hsi.fixed hf ha hsit

end Classifier

end Stagewise
