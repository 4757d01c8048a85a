import Stagewise.Proofs.Classification.ForcedClosure
import Stagewise.Proofs.Emission.Guarding

namespace Stagewise

namespace FanOut

/-- Fan-outs in the order of their blocks, none of them empty. -/
structure Tidy (fanout : List FanOut) : Prop where
  sorted : fanout.Pairwise (·.block < ·.block)
  nonempty : ∀ e ∈ fanout, e.scopes.isEmpty = false

def Lists (fanout : List FanOut) (b : BlockId) (x : Scope) : Prop :=
  ∃ e ∈ fanout, e.block = b ∧ e.scopes.contains x = true

variable {fanout : List FanOut} {block b : BlockId} {scopes : ScopeSet} {x : Scope} {e : FanOut}

theorem block_of_mem_note (h : e ∈ note block scopes fanout) :
    e.block = block ∨ ∃ e' ∈ fanout, e.block = e'.block := by
  induction fanout with
  | nil =>
    obtain rfl := List.mem_singleton.mp h
    exact .inl rfl
  | cons y rest ih =>
    simp only [note] at h
    split at h
    · rcases List.mem_cons.mp h with rfl | h
      · exact .inl rfl
      · exact .inr ⟨e, h, rfl⟩
    · split at h
      · rcases List.mem_cons.mp h with rfl | h
        · exact .inl rfl
        · exact .inr ⟨e, List.mem_cons_of_mem _ h, rfl⟩
      · rcases List.mem_cons.mp h with rfl | h
        · exact .inr ⟨e, List.mem_cons_self, rfl⟩
        · refine (ih h).imp_right fun ho => ?_
          obtain ⟨e', he', heq⟩ := ho
          exact ⟨e', List.mem_cons_of_mem _ he', heq⟩

theorem sorted_note (h : fanout.Pairwise (·.block < ·.block)) :
    (note block scopes fanout).Pairwise (·.block < ·.block) := by
  induction fanout with
  | nil => exact List.pairwise_singleton ..
  | cons y rest ih =>
    obtain ⟨hf, hr⟩ := List.pairwise_cons.mp h
    simp only [note]
    split
    · next hlt =>
      refine List.pairwise_cons.mpr ⟨fun e he => ?_, h⟩
      rcases List.mem_cons.mp he with rfl | he
      · exact hlt
      · exact hlt.trans (hf e he)
    · split
      · next heq =>
        refine List.pairwise_cons.mpr ⟨fun e he => ?_, hr⟩
        exact heq ▸ hf e he
      · next hlt hne =>
        refine List.pairwise_cons.mpr ⟨fun e he => ?_, ih hr⟩
        rcases block_of_mem_note he with heq | ⟨e', he', heq⟩
        · rw [heq]
          exact Nat.lt_of_le_of_ne (Nat.not_lt.mp hlt) (Ne.symm hne)
        · rw [heq]
          exact hf e' he'

theorem lists_note :
    Lists (note block scopes fanout) b x ↔
      Lists fanout b x ∨ b = block ∧ scopes.contains x = true := by
  induction fanout with
  | nil =>
    simp only [Lists, note, List.mem_singleton, exists_eq_left, List.not_mem_nil, false_and,
      exists_false, false_or]
    exact and_congr_left fun _ => eq_comm
  | cons y rest ih =>
    simp only [Lists, note, List.mem_cons] at ih ⊢
    split
    · simp only [List.mem_cons, exists_eq_or_imp]
      rw [or_comm, @eq_comm _ block b]
    · split
      · next heq =>
        simp only [List.mem_cons, exists_eq_or_imp, ScopeSet.contains_union, Bool.or_eq_true]
        rw [heq, @eq_comm _ b, and_or_left, or_assoc, or_assoc]
        exact or_congr_right or_comm
      · simp only [List.mem_cons, exists_eq_or_imp, ih, or_assoc]

theorem nonempty_note (hs : scopes.isEmpty = false)
    (h : ∀ e ∈ fanout, e.scopes.isEmpty = false) :
    ∀ e ∈ note block scopes fanout, e.scopes.isEmpty = false := by
  induction fanout with
  | nil => simpa [note] using hs
  | cons y rest ih =>
    have hr := ih fun e he => h e (List.mem_cons_of_mem _ he)
    have hy := h y List.mem_cons_self
    simp only [note]
    split
    · simpa [hs] using h
    · split
      · intro e he
        rcases List.mem_cons.mp he with rfl | he
        · obtain ⟨x, hx⟩ := ScopeSet.exists_contains hy
          rw [← Bool.not_eq_true, ScopeSet.isEmpty_iff]
          intro hn
          have := hn x
          simp [hx] at this
        · exact h e (List.mem_cons_of_mem _ he)
      · intro e he
        rcases List.mem_cons.mp he with rfl | he
        · exact hy
        · exact hr e he

theorem Tidy.note (h : Tidy fanout) (hs : scopes.isEmpty = false) :
    Tidy (note block scopes fanout) :=
  ⟨sorted_note h.sorted, nonempty_note hs h.nonempty⟩

theorem Tidy.lists_iff (h : Tidy fanout) (he : e ∈ fanout) :
    Lists fanout e.block x ↔ e.scopes.contains x = true := by
  refine ⟨?_, fun hx => ⟨e, he, rfl, hx⟩⟩
  rintro ⟨e', he', hb, hx⟩
  have hn : (fanout.map FanOut.block).Nodup := (List.pairwise_map.mpr h.sorted).imp Nat.ne_of_lt
  exact List.inj_on_of_nodup_map hn he' he hb ▸ hx

end FanOut

namespace Draft

variable {d' d : Draft}

theorem Takes.ne_note {forks after : List Fork} {m : Move}
    (h : d.Takes forks m d' after) (b : BlockId) : m ≠ .note b := by
  cases h <;> simp

theorem Wired.branches (h : d.Wired d') : d'.branches = d.branches := by
  cases h with
  | declareRecord | declareGlobal | setOp | copyPosition => rfl
  | storeField record field slot v =>
    unfold Draft.storeField
    cases slot.scalarized <;> rfl

theorem Wired.terminator? (h : d.Wired d') (b : BlockId) :
    d'.builder.func.terminator? b = d.builder.func.terminator? b := by
  cases h with
  | declareRecord | declareGlobal | setOp => rfl
  | copyPosition =>
    exact (Function.insertAt_terminator? ..).trans (Function.insertAt_terminator? ..)
  | storeField record field slot v =>
    unfold Draft.storeField
    cases slot.scalarized with
    | false => exact Function.append_terminator? ..
    | true => exact (Function.append_terminator? ..).trans (Function.append_terminator? ..)

theorem Shows.branch_iff {src : Source} {k : Sketch} (h : d.Shows src k) (b : BlockId) :
    (∃ source, (b, source) ∈ d.branches) ↔ ∃ cond ifTrue ifFalse,
      d.builder.func.terminator? b = some (.branch cond ifTrue ifFalse) := by
  have he := h.ends b
  constructor
  · rintro ⟨source, hm⟩
    have hs : (d.branches.lookup b).isSome = true :=
      List.lookup_isSome_iff.mpr ⟨_, hm, beq_self_eq_true b⟩
    obtain ⟨source', hlo⟩ := Option.isSome_iff_exists.mp hs
    obtain ⟨ifTrue, ifFalse, hen⟩ := h.logged b source' hlo
    rw [hen] at he
    generalize d.builder.func.terminator? b = t at he
    cases he with
    | branch cond _ _ _ => exact ⟨cond, ifTrue, ifFalse, rfl⟩
  · rintro ⟨cond, ifTrue, ifFalse, ht⟩
    rw [ht] at he
    generalize k.ends b = x at he
    cases he with
    | @branch source _ _ _ hlo =>
      obtain ⟨l, l', hl, -⟩ := List.lookup_eq_some_iff.mp hlo
      exact ⟨source, by simp [hl]⟩

end Draft

theorem Function.close_terminator?_eq_branch {f : Function} {b : BlockId} {cond : Value}
    {ifTrue ifFalse : BlockId} : f.close.terminator? b = some (.branch cond ifTrue ifFalse) ↔
      f.terminator? b = some (.branch cond ifTrue ifFalse) := by
  by_cases hb : b < f.numBlocks
  · rw [close_terminator? hb]
    cases f.terminator? b <;> simp
  · rw [terminator?_eq_none (Nat.not_lt.mp hb),
      terminator?_eq_none (f.close_numBlocks.symm ▸ Nat.not_lt.mp hb)]

theorem Classifier.branch_of_mem_parents {p : Program} {f : Function} {strategy : Strategy}
    {tree : PostDominators} {b q : BlockId} (h : q ∈ (classifierOf p f strategy tree).parents b) :
    ∃ cond ifTrue ifFalse, f.terminator? q = some (.branch cond ifTrue ifFalse) := by
  obtain ⟨-, -, hd⟩ := mem_parents.mp h
  unfold Function.decidedBy at hd
  split at hd
  · next ht => exact ⟨_, _, _, ht⟩
  · simp at hd

namespace Emission

variable {src : Source} {s t : Emission} {scope : Scope}

theorem Does.noted {deed : Deed} {s t : Stage} (h : Does src deed s t) :
    (FanOut.Tidy s.state.fanout → FanOut.Tidy t.state.fanout) ∧
      ∀ b x, FanOut.Lists t.state.fanout b x ↔
        FanOut.Lists s.state.fanout b x ∨ .note b ∈ deed.moves x := by
  have hs : ∀ {s t : Emission} {scope : Scope} {m : Move}, t.fanout = s.fanout →
      (∀ b, m ≠ .note b) → (FanOut.Tidy s.fanout → FanOut.Tidy t.fanout) ∧
        ∀ b x, FanOut.Lists t.fanout b x ↔
          FanOut.Lists s.fanout b x ∨ .note b ∈ Deed.moves x (.move scope m) := by
    intro s t scope m hf hm
    refine ⟨fun ht => hf ▸ ht, fun b x => ?_⟩
    rw [hf, Deed.moves]
    split
    · simp [(hm b).symm]
    · simp
  cases h with
  | visit _ _ _ hc => exact hs hc.quiet.fanout (by simp)
  | fork hr _ _ => exact hs (t := setDraft _ _ _) hr.quiet.fanout (by simp)
  | steer _ hta => exact hs (t := setDraft _ _ _) rfl hta.ne_note
  | note hne =>
    refine ⟨fun ht => ht.note hne, fun b x => FanOut.lists_note.trans (or_congr_right ?_)⟩
    rw [Deed.moves]
    split
    · next hx => simp [hx]
    · next hx => simp [hx]
  | loop _ => exact ⟨id, fun b x => by simp [Deed.moves]⟩

theorem Run.noted {deeds : List Deed} {s t : Stage} (h : Run src deeds s t) :
    (FanOut.Tidy s.state.fanout → FanOut.Tidy t.state.fanout) ∧
      ∀ b x, FanOut.Lists t.state.fanout b x ↔
        FanOut.Lists s.state.fanout b x ∨ .note b ∈ deeds.flatMap (Deed.moves x) := by
  induction h with
  | nil => exact ⟨id, fun b x => by simp⟩
  | cons hdo _ ih =>
    refine ⟨fun ht => ih.1 (hdo.noted.1 ht), fun b x => ?_⟩
    rw [ih.2, hdo.noted.2, List.flatMap_cons, List.mem_append, or_assoc]

theorem Lays.fanout (h : s.Lays t) : t.fanout = s.fanout := by
  induction h with
  | refl => rfl
  | tail _ hs ih => cases hs <;> exact ih

theorem Lays.size (h : s.Lays t) : t.drafts.size = s.drafts.size := by
  induction h with
  | refl => rfl
  | tail _ hs ih =>
    cases hs with
    | markFixed | types => exact ih
    | edit _ _ => exact (size_setDraft ..).trans ih

theorem Lays.terminator? (h : s.Lays t) {d' : Draft} (hd' : t.drafts[scope.val]? = some d') :
    ∃ d, s.drafts[scope.val]? = some d ∧ d'.branches = d.branches ∧
      ∀ b, d'.builder.func.terminator? b = d.builder.func.terminator? b := by
  induction h generalizing d' with
  | refl => exact ⟨d', hd', rfl, fun _ => rfl⟩
  | tail _ hs ih =>
    cases hs with
    | markFixed | types => exact ih hd'
    | @edit other e e' he hw =>
      rcases setDraft_scope_cases he hd' with ⟨rfl, rfl⟩ | ⟨-, hd'⟩
      · obtain ⟨d, hd, hb, ht⟩ := ih he
        exact ⟨d, hd, hw.branches.trans hb,
          fun b => (hw.terminator? b).trans (ht b)⟩
      · exact ih hd'

end Emission

namespace Source

open Emission

variable {src : Source} {tree : PostDominators}

def Wants (src : Source) (it : Itinerary) (b : BlockId) (x : Scope) : Prop :=
  ∃ site ∈ it.sites, site.block = b ∧ (src.wantedScopes site).contains x = true

theorem wants_itinerary_iff (htr : PostDominators.ofFunction src.func = .ok tree)
    (hfo : (Route.itinerary ⟨src.func, tree⟩).Found) {b : BlockId} {x : Scope}
    (hx : x.val < Scope.limit) :
    src.Wants (Route.itinerary ⟨src.func, tree⟩) b x ↔ src.func.Reaches src.func.entry b ∧
      ∃ cond ifTrue ifFalse, src.func.terminator? b = some (.branch cond ifTrue ifFalse) ∧
        ((src.table.guardsAt b).contains x = true ∨
          ∃ j, tree.nearestCommon? ifTrue ifFalse = some j ∧
            ∃ i ∈ src.func.phis j, src.table.instScope i = some x) := by
  have hf : Route.Follows ⟨src.func, tree⟩ [] src.func.entry none _ :=
    Route.follows_of_found hfo
  have he := @Route.mem_entered_itinerary ⟨src.func, tree⟩ b htr hfo
  constructor
  · rintro ⟨site, hs, rfl, hw⟩
    obtain ⟨ht, hj⟩ := hf.site_eq hs
    obtain ⟨hin, -⟩ := (hf.mem_sites_iff _).mp ⟨site, hs, rfl⟩
    rw [src.contains_wantedScopes site hx, hj] at hw
    exact ⟨he.mp hin, _, _, _, ht, hw⟩
  · rintro ⟨hr, cond, ifTrue, ifFalse, ht, hw⟩
    obtain ⟨site, hs, rfl⟩ :=
      (hf.mem_sites_iff b).mpr ⟨he.mpr hr, cond, ifTrue, ifFalse, ht⟩
    obtain ⟨ht', hj⟩ := hf.site_eq hs
    simp only [ht, Option.some.injEq, Terminator.branch.injEq] at ht'
    obtain ⟨-, rfl, rfl⟩ := ht'
    refine ⟨site, hs, rfl, ?_⟩
    rw [src.contains_wantedScopes site hx, hj]
    exact hw

structure Fanned (src : Source) (tree : PostDominators) (n : Nat) (u : Emission) : Prop where
  found : (Route.itinerary ⟨src.func, tree⟩).Found
  size : u.drafts.size = n
  tidy : FanOut.Tidy u.fanout
  noted : ∀ b x, FanOut.Lists u.fanout b x ↔
    (ScopeSet.first n).contains x = true ∧ src.Wants (Route.itinerary ⟨src.func, tree⟩) b x
  copied : ∀ (x : Scope) (d : Draft), u.drafts[x.val]? = some d → ∀ b,
    (∃ k, (k, b) ∈ d.branches) ↔ FanOut.Lists u.fanout b x
  ends : ∀ (x : Scope) (d : Draft), u.drafts[x.val]? = some d → ∀ k,
    (∃ b, (k, b) ∈ d.branches) ↔ ∃ cond ifTrue ifFalse,
      d.builder.func.terminator? k = some (.branch cond ifTrue ifFalse)

theorem sat_copyAll_fanned (tree : PostDominators) (types : TypePool) (scopes : List String) :
    Act.Sat Act.Any (src.copyAll tree) (Emission.start src types scopes) fun _ u =>
      src.Fanned tree scopes.length u := by
  refine ((sat_copyAll_run tree _).and (sat_copyAll_pictured tree types scopes)).mono ?_
  rintro _ u ⟨⟨hfo, deeds, hr, hm⟩, hp⟩
  have hn : ∀ b x, FanOut.Lists u.fanout b x ↔ ∃ site, .fork site ∈ src.moves tree scopes.length x ∧
      site.block = b := by
    intro b x
    rw [hr.noted.2, hm, size_start, or_iff_right (by rintro ⟨e, he, -⟩; cases he), moves]
    split
    · exact mem_moves_note
    · simp
  refine ⟨hfo, hr.size.trans (size_start types scopes),
    hr.noted.1 ⟨.nil, by simp [Emission.start]⟩, fun b x => ?_, fun x d hd b => ?_,
    fun x d hd k => (hp.scopes x d hd).branch_iff k⟩
  · rw [hn, moves]
    split
    · next hx =>
      simp only [hx, mem_moves_fork, Wants, true_and]
      exact exists_congr fun site => by tauto
    · next hx => simp [hx]
  · have hl := hr.log x
    rw [hm, log_start, size_start, Emission.log, hd, Option.elim_some] at hl
    have hf := @Log.mem_forked_foldl ⟨[], [], []⟩ (src.moves tree scopes.length x) b
    rw [← hl] at hf
    rw [hn]
    simpa [Draft.log] using hf

theorem Fanned.lays {n : Nat} {t u : Emission} (h : src.Fanned tree n t) (hl : t.Lays u) :
    src.Fanned tree n u := by
  refine ⟨h.found, hl.size.trans h.size, hl.fanout ▸ h.tidy, hl.fanout ▸ h.noted,
    fun x d' hd' => ?_, fun x d' hd' k => ?_⟩
  · obtain ⟨d, hd, hb, -⟩ := hl.terminator? hd'
    rw [hb, hl.fanout]
    exact h.copied x d hd
  · obtain ⟨d, hd, hb, ht⟩ := hl.terminator? hd'
    rw [hb, ht]
    exact h.ends x d hd k

/-- The fan-out of a copied function is ordered by blocks. It has an entry for each branch that
control can reach and that some scope wants: one with a phi where the arms come together, or one that
the branch guards. The entry has all scopes that want the branch. The blocks of a part that end in a
branch are copies of the branches that are noted for its scope. So every branch that decides, directly
or through others, about a write that must keep its branches is copied into the scope of the write. -/
theorem mem_fanout_iff {tree : PostDominators} {types : TypePool} {scopes : List String}
    {records : List (RecordKey × String)} {layouts : List TransferLayout} {u : Emission}
    (htree : PostDominators.ofFunction src.func = .ok tree) (hlimit : scopes.length ≤ Scope.limit)
    (hrun : (do src.copyAll tree; src.layOutAll records : Act Emission _).run
      (Emission.start src types scopes) = (.ok layouts, u)) :
    u.fanout.Pairwise (·.block < ·.block) ∧
    (∀ b W, ⟨b, W⟩ ∈ u.fanout ↔ src.func.Reaches src.func.entry b ∧ W.isEmpty = false ∧
      ∃ cond ifTrue ifFalse, src.func.terminator? b = some (.branch cond ifTrue ifFalse) ∧
        ∀ x, W.contains x = true ↔ x.val < scopes.length ∧
          ((src.table.guardsAt b).contains x = true ∨
            ∃ j, tree.nearestCommon? ifTrue ifFalse = some j ∧
              ∃ i ∈ src.func.phis j, src.table.instScope i = some x)) ∧
    (∀ x : Scope, x.val < scopes.length → ∃ d, u.drafts[x.val]? = some d ∧
      (∀ k, (∃ b, (k, b) ∈ d.branches) ↔ ∃ cond ifTrue ifFalse,
        d.builder.finish.terminator? k = some (.branch cond ifTrue ifFalse)) ∧
      ∀ b, (∃ k, (k, b) ∈ d.branches) ↔ ∃ e ∈ u.fanout, e.block = b ∧ e.scopes.contains x = true) ∧
    ∀ strategy c requests answers session,
      Classifier.ofFunction src.program src.func strategy tree = .ok c →
      (∀ r ∈ requests, ∀ b x, c.Demands r b x → x.val < Scope.limit) →
      (c.answerAll requests).run c.openSession = (.ok answers, session) →
      session.state.table = src.table →
      ∀ r ∈ Request.inForce requests, ∀ w x q, c.Demands r w x → x.val < scopes.length →
        Relation.TransGen (fun b q => q ∈ c.parents b) w q → src.func.Reaches src.func.entry q →
        ∃ e ∈ u.fanout, e.block = q ∧ e.scopes.contains x = true := by
  have hfanned : src.Fanned tree scopes.length u := by
    have hsat : Act.Sat Act.Any (do src.copyAll tree; src.layOutAll records)
        (Emission.start src types scopes) fun _ u => src.Fanned tree scopes.length u :=
      Act.sat_bind.mpr ((sat_copyAll_fanned tree types scopes).mono fun _ t ht =>
        (sat_layOutAll_lays records).mono fun _ u hu => ht.lays hu)
    exact hsat.of_run hrun
  have hfirst : ∀ x, (ScopeSet.first scopes.length).contains x = true ↔ x.val < scopes.length :=
    fun x => ScopeSet.contains_first hlimit
  -- a branch is noted for a scope when control reaches it and the scope wants it
  have hlists : ∀ b x, FanOut.Lists u.fanout b x ↔ x.val < scopes.length ∧
      src.func.Reaches src.func.entry b ∧
      ∃ cond ifTrue ifFalse, src.func.terminator? b = some (.branch cond ifTrue ifFalse) ∧
        ((src.table.guardsAt b).contains x = true ∨
          ∃ j, tree.nearestCommon? ifTrue ifFalse = some j ∧
            ∃ i ∈ src.func.phis j, src.table.instScope i = some x) := by
    intro b x
    rw [hfanned.noted, hfirst]
    exact and_congr_right fun hx =>
      wants_itinerary_iff htree hfanned.found (Nat.lt_of_lt_of_le hx hlimit)
  refine ⟨hfanned.tidy.sorted, fun b W => ⟨fun hmem => ?_, ?_⟩, fun x hx => ?_, ?_⟩
  · have hne := hfanned.tidy.nonempty _ hmem
    obtain ⟨y, hy⟩ := ScopeSet.exists_contains hne
    obtain ⟨-, hreach, cond, ifTrue, ifFalse, hterm, -⟩ := (hlists b y).mp ⟨_, hmem, rfl, hy⟩
    refine ⟨hreach, hne, cond, ifTrue, ifFalse, hterm, fun x => ?_⟩
    rw [← hfanned.tidy.lists_iff hmem, hlists]
    simp [hreach, hterm]
  · rintro ⟨hreach, hne, cond, ifTrue, ifFalse, hterm, hW⟩
    have hnoted : ∀ x, W.contains x = true ↔ FanOut.Lists u.fanout b x := by
      intro x
      rw [hW, hlists]
      simp [hreach, hterm]
    obtain ⟨y, hy⟩ := ScopeSet.exists_contains hne
    obtain ⟨e, he, rfl, -⟩ := (hnoted y).mp hy
    have heq : W = e.scopes := ScopeSet.ext_contains fun x =>
      (hnoted x).trans (hfanned.tidy.lists_iff he)
    exact heq ▸ he
  · have hd := Array.getElem?_eq_getElem (hfanned.size ▸ hx : x.val < u.drafts.size)
    refine ⟨_, hd, fun k => ?_, fun b => ?_⟩
    · rw [hfanned.ends x _ hd k]
      simp only [Builder.finish, Function.close_terminator?_eq_branch]
    · exact hfanned.copied x _ hd b
  · intro strategy c requests answers session hc hscopes hanswered htable r hr w x q hw hx hpath hreach
    obtain rfl := Classifier.eq_classifierOf hc
    have htracks := (Classifier.responses_of_answerAll hanswered).tracks
      (Classifier.parentsInRange_classifierOf _ _ _ _) hscopes (Classifier.tracks_openSession _)
    have hforced := htracks.current.demanded w x ⟨r, hr, hw⟩
    have hguards := htracks.current.guarding.guardsAt hforced hpath
    obtain ⟨d, -, hd⟩ := Relation.TransGen.tail'_iff.mp hpath
    obtain ⟨cond, ifTrue, ifFalse, hterm⟩ := Classifier.branch_of_mem_parents hd
    exact (hlists q x).mpr ⟨hx, hreach, cond, ifTrue, ifFalse, hterm, .inl (htable ▸ hguards)⟩

end Source

def guardedRequests : List Request :=
  [.rootNamed "a" (.ofNat 0) (.ofNat 1), .rootNamed "b" (.ofNat 0) (.ofNat 1),
    .sink "out" (.ofNat 1) (.ofNat 1)]

def guardedSource : Source where
  program := nestedClassifier.program
  func := nestedWrite
  table := ((nestedClassifier.answerAll guardedRequests).run nestedClassifier.openSession).2.state.table

/-- An inner branch guards a write of the later scope, so the outer one is copied there too. -/
theorem fanout_nestedWrite : ∃ layouts u,
    (do guardedSource.copyAll nestedClassifier.postDominators
        guardedSource.layOutAll [(⟨0, 1, false⟩, "early_to_late")] : Act Emission _).run
      (Emission.start guardedSource .empty ["early", "late"]) = (.ok layouts, u) ∧
    u.fanout.Pairwise (·.block < ·.block) ∧
    (∀ b W, ⟨b, W⟩ ∈ u.fanout ↔ nestedWrite.Reaches 0 b ∧ W.isEmpty = false ∧
      ∃ cond ifTrue ifFalse, nestedWrite.terminator? b = some (.branch cond ifTrue ifFalse) ∧
        ∀ x, W.contains x = true ↔ x.val < 2 ∧
          ((guardedSource.table.guardsAt b).contains x = true ∨
            ∃ j, nestedClassifier.postDominators.nearestCommon? ifTrue ifFalse = some j ∧
              ∃ i ∈ nestedWrite.phis j, guardedSource.table.instScope i = some x)) ∧
    ∃ e ∈ u.fanout, e.block = 0 ∧ e.scopes.contains 1 = true := by
  have htree : PostDominators.ofFunction guardedSource.func
      = .ok nestedClassifier.postDominators := by decide +kernel
  have hok : ((do guardedSource.copyAll nestedClassifier.postDominators
                  guardedSource.layOutAll [(⟨0, 1, false⟩, "early_to_late")] : Act Emission _).run
      (Emission.start guardedSource .empty ["early", "late"])).1.isOk = true := by decide +kernel
  obtain ⟨layouts, hrun⟩ := Act.exists_run_of_isOk hok
  obtain ⟨hsorted, hmem, -, hguards⟩ := Source.mem_fanout_iff htree (by decide) hrun
  have hanswered : ((nestedClassifier.answerAll guardedRequests).run
      nestedClassifier.openSession).1.isOk = true := by decide +kernel
  obtain ⟨answers, hanswers⟩ := Act.exists_run_of_isOk hanswered
  have hscopes : ∀ r ∈ guardedRequests, ∀ b x, nestedClassifier.Demands r b x →
      x.val < Scope.limit := by
    intro r hr b x hd
    simp only [guardedRequests, List.mem_cons, List.not_mem_nil, or_false] at hr
    rcases hr with rfl | rfl | rfl
    · exact hd.elim
    · exact hd.elim
    · rw [hd.1]
      decide
  have hdemands : nestedClassifier.Demands (.sink "out" 1 (.ofNat 1)) 2 1 :=
    ⟨rfl, 2, _, rfl, rfl, .inr ⟨_, _, 2, rfl, rfl, by decide +kernel, by decide +kernel⟩⟩
  have hpath : Relation.TransGen (fun b q => q ∈ nestedClassifier.parents b) 2 0 :=
    .tail (.single (by decide +kernel : 1 ∈ nestedClassifier.parents 2))
      (by decide +kernel : 0 ∈ nestedClassifier.parents 1)
  have hforce : .sink "out" 1 (.ofNat 1) ∈ Request.inForce guardedRequests := .tail _ (.tail _ (.head _))
  have htable : ((nestedClassifier.answerAll guardedRequests).run
      nestedClassifier.openSession).2.state.table = guardedSource.table := by rw [guardedSource]
  exact ⟨layouts, _, hrun, hsorted, hmem,
    hguards .plain nestedClassifier guardedRequests answers _
      (Classifier.ofFunction_eq (by decide)) hscopes hanswers htable
      _ hforce 2 1 0 hdemands (by decide) hpath .refl⟩

end Stagewise
