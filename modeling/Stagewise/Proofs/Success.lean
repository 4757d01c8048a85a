import Stagewise.Proofs.Emission.Visits
import Stagewise.Proofs.Emission.Wiring
import Stagewise.Proofs.Ssa.Check

namespace Stagewise

namespace Emission

theorem sound_start (src : Source) (types : TypePool) (scopes : List String)
    (blocks : List BlockId) : (start src types scopes).Sound src scopes.length blocks :=
  ⟨by simp [start], fun slot hs => by simp [start, Ledger.empty] at hs,
    fun slot hs => by simp [start, Ledger.empty] at hs⟩

end Emission

namespace Source

open Emission

theorem sat_emitTable {src : Source} {table : ScopeTable} (hsr : src.Classified table.size)
    (hl : table.size ≤ Scope.limit) {t : PostDominators} (ht : t.Exact src.func)
    (types : TypePool) :
    Act.Sat Act.Never (src.emitTable t table) (Emission.start src types table.scopes)
      fun _ _ => True := by
  unfold emitTable layOutTable
  simp only [Act.sat_bind, Act.sat_get, Act.sat_pure]
  refine (sat_copyAll hsr hl ht (sound_start src types table.scopes _) rfl
    (log_start types table.scopes)).mono fun _ s hs => ?_
  refine (sat_layOutAll (hs.1.backed hsr hs.2.1 hs.2.2) _).mono fun _ u hu => ?_
  exact (sat_layOutAll hu _).mono fun _ _ _ => trivial

end Source

/-- Splitting a function in static single assignment form by a valid table comes to an answer. -/
theorem split_eq_ok {p : Program} {types : TypePool} {f : Function} {table : ScopeTable}
    (hssa : f.Ssa p) (hlimit : table.size ≤ Scope.limit) (hvalid : table.validate = .ok ()) :
    ∃ answer, split p types f table .plain = .ok answer := by
  obtain ⟨tree, htree, hexact⟩ := PostDominators.ofFunction_exact hssa.targets
  have hclassify := Classifier.sat_classifyTable (c := classifierOf p f .plain tree) hssa
    (Classifier.parentsInRange_classifierOf p f .plain tree) rfl hvalid Classifier.initial_sound
  obtain ⟨⟨_, sinks⟩, state, hrun, hsound⟩ := Act.sat_never_iff.mp hclassify
  have hsrc : Source.Classified ⟨p, f, state.table⟩ table.size :=
    ⟨hssa, hsound.fits, hsound.within⟩
  obtain ⟨transfers, final, hemit, -⟩ :=
    Act.sat_never_iff.mp (Source.sat_emitTable hsrc hlimit hexact types)
  have hbranches := Classifier.branchesInRange_of_targetsInRange hssa.targets
  exact ⟨_, Splits.split_eq ⟨hvalid, htree, hbranches, hrun, hemit⟩⟩

/-- A loop that control enters at two places; its value is written in a later scope than that of the
binding that decides where it is entered. -/
def twoEntryLoop : Function where
  name := "main"
  entry := 0
  blocks := #[⟨[0], some (.branch (.inst 0) 1 2)⟩, ⟨[], some (.jump 2)⟩,
    ⟨[1], some (.branch (.inst 1) 1 3)⟩, ⟨[2], some .ret⟩]
  insts := #[⟨.load (.member 0 []), .bool, 0⟩,
    ⟨.phi [(0, .const ⟨.bool, .bool true⟩), (1, .inst 0)], .bool, 2⟩,
    ⟨.store (.inst 1) (.member 1 []), .void, 3⟩]
  layout := [0, 1, 2, 3]

def twoEntryProgram : Program :=
  ⟨"loop", [.plain "flag" .bool, .plain "out" .bool], [], [twoEntryLoop]⟩

def twoEntryTable : ScopeTable where
  scopes := ["early", "late"]
  roots := [⟨"flag", .ofNat 0, .ofNat 1⟩]
  sinks := [⟨"out", .ofNat 1, .ofNat 1⟩]
  transfers := []

theorem split_twoEntryLoop :
    twoEntryLoop.Ssa twoEntryProgram ∧ twoEntryTable.size ≤ Scope.limit ∧
      twoEntryTable.validate = .ok () ∧
      ∃ answer, split twoEntryProgram .empty twoEntryLoop twoEntryTable .plain = .ok answer := by
  have hssa : twoEntryLoop.Ssa twoEntryProgram := Function.ssa_of_test (by decide)
  exact ⟨hssa, by decide, by decide, split_eq_ok hssa (by decide) (by decide)⟩

end Stagewise
