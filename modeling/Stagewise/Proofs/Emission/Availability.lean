import Stagewise.Proofs.Classification.Placement
import Stagewise.Proofs.Emission.Copying

namespace Stagewise

namespace Source

/-- A load that is copied into a later scope than that of its binding, and moved there. -/
def RaisedTo (src : Source) (owner : Scope) (i : InstId) : Prop :=
  ∃ inst g path scope, src.func.insts[i]? = some inst ∧ inst.op = .load (.member g path) ∧
    src.table.globalScope g = some owner ∧ src.table.instScope i = some scope ∧ owner < scope

def StandsIn (src : Source) (blocks : List BlockId) (i : InstId) : Prop :=
  ∃ b ∈ blocks, i ∈ src.func.instsOf b

def Promised (src : Source) (n : Nat) (blocks : List BlockId) (owner : Scope) (i : InstId) : Prop :=
  owner.val < n ∧ src.StandsIn blocks i ∧
    (src.table.instScope i = some owner ∨ src.RaisedTo owner i)

/-- A function in static single assignment form with a table of its placements in `n` scopes. -/
structure Classified (src : Source) (n : Nat) : Prop where
  ssa : src.func.Ssa src.program
  fits : src.table.Fits src.program src.func
  within : src.table.Within src.func n

end Source

namespace Emission

variable {src : Source} {n : Nat} {blocks : List BlockId} {s t u : Emission} {scope : Scope}

/-- All slots are from and to one of the first `n` scopes, and carry what a walk through the given
blocks makes. -/
structure Sound (src : Source) (n : Nat) (blocks : List BlockId) (s : Emission) : Prop where
  size : s.drafts.size = n
  values : ∀ slot ∈ s.ledger.values, slot.dst.val < n ∧ src.Promised n blocks slot.src slot.source
  arrays : ∀ slot ∈ s.ledger.arrays,
    slot.src.val < n ∧ slot.dst.val < n ∧ slot.global < src.program.numGlobals

theorem lookup_cons_exists {l : List (InstId × Value)} (i : InstId) (v : Value) (j : InstId)
    (w : Value) (h : l.lookup j = some w) : ∃ w', ((i, v) :: l).lookup j = some w' := by
  rw [List.lookup_cons]
  split
  · exact ⟨v, rfl⟩
  · exact ⟨w, h⟩

theorem grows_addCopy {d e : Draft} {i : InstId} {v : Value} (hd : s.drafts[scope.val]? = some d)
    (hc : e.copies = d.copies) :
    s.Grows (s.setDraft scope (e.addCopy i v)) ∧ (s.setDraft scope (e.addCopy i v)).Has scope i := by
  refine ⟨grows_setDraft hd fun j w hw => ?_, _, v, getElem?_setDraft_self hd, ?_⟩
  · rw [Draft.addCopy, hc]
    exact lookup_cons_exists i v j w hw
  · simp [Draft.addCopy]

theorem Reads.sound (h : Reads src (.carrying (src.Promised n blocks)) s t) (hs : s.Sound src n blocks) :
    t.Sound src n blocks := by
  induction h with
  | refl => exact hs
  | tail _ hst ih =>
    cases hst with
    | report _ => exact ⟨ih.size, ih.values, ih.arrays⟩
    | declareGlobal hd _ _ | declare hd _ =>
      exact ⟨by rw [size_setDraft, ih.size], ih.values, ih.arrays⟩
    | @openRead owner dst i inst d hd _ _ _ ha =>
      refine ⟨by rw [openRead]; exact (size_setDraft _ _ _).trans ih.size, ?_, ih.arrays⟩
      intro slot hsl
      rcases List.mem_append.mp hsl with hsl | hsl
      · exact ih.values slot hsl
      · obtain rfl := List.mem_singleton.mp hsl
        refine ⟨?_, ha⟩
        rw [← ih.size]
        exact (Array.getElem?_eq_some_iff.mp hd).1

section Copied

variable {pred : Option BlockId} {i : InstId} {inst : Inst}

theorem grows_append {d : Draft} (block : BlockId) (ty : TypeId) (op : Operation)
    (hd : s.drafts[scope.val]? = some d) :
    s.Grows (s.setDraft scope
        ((d.append block ty op).2.addCopy i (.inst (d.append block ty op).1))) ∧
      (s.setDraft scope
        ((d.append block ty op).2.addCopy i (.inst (d.append block ty op).1))).Has scope i :=
  grows_addCopy (e := (d.append block ty op).2) hd rfl

variable {allowed : Permit}

section

variable (h : Copied src allowed scope pred i inst s t)
include h

theorem Copied.grows : s.Grows t := by
  cases h with
  | emitted hr hd _ _ _ => exact hr.keeps.grows.trans (grows_append _ _ _ hd).1
  | known _ _ _ hr _ hd | missing _ _ _ hr _ hd | unsupported _ _ hr _ hd =>
    exact hr.keeps.grows.trans (grows_addCopy hd rfl).1
  | raised _ _ _ hr he _ hr' hd _ =>
    exact (hr.keeps.grows.trans (grows_append _ _ _ he).1).trans
      (hr'.keeps.grows.trans (grows_addCopy hd rfl).1)
  | @array _ d _ _ _ _ _ _ _ _ _ _ _ _ _ hr _ hd =>
    have := hr.keeps.grows.trans (grows_append (i := i) d.builder.current inst.ty (.load .pending) hd).1
    exact ⟨this.size, this.has⟩
  | skipped _ hr => exact hr.keeps.grows

theorem Copied.has (hc : ∀ v args, inst.op ≠ .call (.indirect v) args)
    (hs : inst.op.address? ≠ some .pending) : t.Has scope i := by
  cases h with
  | emitted _ hd _ _ _ => exact (grows_append _ _ _ hd).2
  | known _ _ _ _ _ hd | missing _ _ _ _ _ hd | unsupported _ _ _ _ hd
  | raised _ _ _ _ _ _ _ hd _ => exact (grows_addCopy hd rfl).2
  | array _ _ _ _ _ _ _ _ hd =>
    exact (grows_append _ _ _ hd).2
  | skipped hsk _ =>
    rcases hsk with ⟨v, args, hop⟩ | ⟨v, hop, -⟩
    · exact absurd hop (hc v args)
    · exact absurd (by rw [hop]; rfl) hs

theorem Copied.has_raised (hi : src.func.insts[i]? = some inst)
    (hs : src.table.instScope i = some scope) {owner : Scope} (hr : src.RaisedTo owner i) :
    t.Has owner i := by
  obtain ⟨inst', g, path, scope', hi', hop, hg, hs', hlt⟩ := hr
  obtain rfl := Option.mem_unique hi hi'
  obtain rfl := Option.mem_unique hs hs'
  cases h with
  | emitted _ _ _ _ hst => exact absurd hlt (hst _ g owner hop rfl hg)
  | known hop' _ _ _ _ _ | missing hop' _ _ _ _ _ => exact absurd (hop.symm.trans hop') (by simp)
  | unsupported hop' ha _ _ _ =>
    exact absurd (Operation.load.inj (hop'.symm.trans hop)) (ha.1 g path)
  | raised hop' hg' _ _ he _ hre hd _ =>
    have ha := Operation.load.inj (hop.symm.trans hop')
    simp only [Address.member.injEq] at ha
    obtain ⟨rfl, rfl⟩ := ha
    obtain rfl := Option.mem_unique hg hg'
    exact (hre.keeps.grows.trans (grows_addCopy hd rfl).1).has _ _ (grows_append _ _ _ he).2
  | array hop' _ _ _ _ _ _ _ _ => exact absurd (hop.symm.trans hop') (by simp)
  | skipped hsk _ =>
    rcases hsk with ⟨v, args, hop'⟩ | ⟨v, hop', -⟩ <;> exact absurd (hop.symm.trans hop') (by simp)

end

theorem Copied.sound (hsr : src.Classified n)
    (h : Copied src (.carrying (src.Promised n blocks)) scope pred i inst s t)
    (hs : s.Sound src n blocks) :
    t.Sound src n blocks := by
  have hse : ∀ {u : Emission} {scope : Scope} {d : Draft}, u.Sound src n blocks →
      (u.setDraft scope d).Sound src n blocks := fun hu =>
    ⟨by rw [size_setDraft, hu.size], hu.values, hu.arrays⟩
  cases h with
  | emitted hr _ _ _ _ | known _ _ _ hr _ _ | missing _ _ _ hr _ _ | unsupported _ _ hr _ _ =>
    exact hse (hr.sound hs)
  | raised _ _ _ hr _ _ hr' _ _ => exact hse (hr'.sound (hse (hr.sound hs)))
  | @array _ d owner g decl path index r len _ hg _ _ hde _ hr _ hd =>
    have ht := hr.sound hs
    refine ⟨by rw [← ht.size]; exact size_setDraft _ _ _, ht.values, fun x hx => ?_⟩
    obtain ⟨y, hy, hsa⟩ := Ledger.mem_mergeArray hx
    rw [hsa]
    rcases List.mem_cons.mp hy with rfl | hy
    · refine ⟨hsr.within.scope_lt (.global g) owner (Classification.usedScope_eq_some hg), ?_, ?_⟩
      · rw [← ht.size]
        exact (Array.getElem?_eq_some_iff.mp hd).1
      · exact (List.getElem?_eq_some_iff.mp hde).1
    · exact ht.arrays y hy
  | skipped _ hr => exact hr.sound hs

end Copied

end Emission

end Stagewise
