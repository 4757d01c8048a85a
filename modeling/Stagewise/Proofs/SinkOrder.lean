import Mathlib.Data.List.Perm.Basic
import Stagewise.Proofs.Classification.ForcedClosure
import Stagewise.Proofs.Classification.Outcome
import Stagewise.Proofs.Emission.Views

namespace Stagewise

open Relation

/-- An operation writes the sink of a name: it stores to its binding or calls its function. -/
def Program.writesSink (p : Program) (name : String) : Operation → Bool
  | .store _ addr => (p.globalNamed? name).isSome && addr.global? == p.globalNamed? name
  | .call (.direct callee) _ => p.declNamed? name == some callee
  | _ => false

theorem Journal.foldl_note {requests : List Request}
    (h : ∀ r ∈ requests, r.isRoot = true ∨ ∃ e : Endpoint, r = e.demand) (j : Journal) :
    requests.foldl Journal.note j = ⟨j.current ++ requests, j.saved⟩ := by
  induction requests generalizing j with
  | nil => simp
  | cons r rest ih =>
    have hn : j.note r = ⟨j.current ++ [r], j.saved⟩ := by
      rcases h r List.mem_cons_self with hr | ⟨e, rfl⟩
      · cases r <;> first | rfl | cases hr
      · rfl
    rw [List.foldl_cons, hn, ih fun r' hr' => h r' (List.mem_cons_of_mem _ hr')]
    simp

namespace Classifier

variable {c : Classifier} {s s₁ s₂ : State} {R : List Request} {U : Node → Prop}
  {roots : GlobalId → Option Scope} {B B₁ B₂ : Problem → Prop} {n : Node}

/-- All that the requests ask for and all that was used is used, and all writes are fixed. -/
structure Served (c : Classifier) (R : List Request) (U : Node → Prop) (t : Classification) :
    Prop where
  used : ∀ n, U n ∨ (∃ r ∈ R, c.Asks r n) → (t.info n).isUsed = true
  pinned : ∀ i x, c.Writes R i x → t.isPinned i = true

theorem Standing.isUsed_iff (h : c.Standing roots R U B s) (hs : c.Served R U s.table) :
    (s.table.info n).isUsed = true ↔ U n ∨ c.Reaches R n := by
  refine ⟨h.used n, ?_⟩
  rintro (hU | hr)
  · exact hs.used n (.inl hU)
  · exact h.charted.isUsed_of_reaches (fun n hn => hs.used n (.inr hn)) hr

theorem Standing.not_fixes (h : c.Standing roots R U B s) (hf : c.Free R n) :
    s.table.fixes n = false := by
  cases n with
  | inst i =>
    by_contra hp
    obtain ⟨x, -, hW⟩ := h.charted.pinned i (by simpa [Classification.fixes] using hp)
    exact hf i x rfl hW
  | global _ | block _ | terminator _ => rfl

theorem Standing.not_fails (h : c.Standing roots R U B s) (hs : c.Served R U s.table)
    (e : Fault) : ¬c.Fails R e := by
  rintro ⟨-, n, hr, hf, hb⟩
  have hu := (h.isUsed_iff hs).mpr (.inr hr)
  exact h.charted.flowing.not_broken h.charted.fits hu (h.not_fixes hf) hb

theorem Standing.scope_eq (hp : c.strategy = .plain) (hr : c.Unread R)
    (ho : ∀ i x y, c.Writes R i x → c.Writes R i y → x = y)
    (h1 : c.Standing roots R U B₁ s₁) (h2 : c.Standing roots R U B₂ s₂)
    (hs1 : c.Served R U s₁.table) (hs2 : c.Served R U s₂.table) (n : Node) :
    (s₂.table.info n).scope = (s₁.table.info n).scope := by
  by_cases hu : (s₁.table.info n).isUsed = true
  · have hu2 := (h2.isUsed_iff hs2).mpr ((h1.isUsed_iff hs1).mp hu)
    by_cases hf : c.Free R n
    · have hc := hr.clear hf
      exact Option.ext fun x => (h2.charted.scope_eq_some_iff hp hc hu2).trans
        (h1.charted.scope_eq_some_iff hp hc hu).symm
    · simp only [Free, not_forall, not_not] at hf
      obtain ⟨i, x, rfl, hW⟩ := hf
      obtain ⟨y1, hy1, hW1⟩ := h1.charted.pinned i (hs1.pinned i x hW)
      obtain ⟨y2, hy2, hW2⟩ := h2.charted.pinned i (hs2.pinned i x hW)
      exact hy2.trans ((ho i _ _ hW2 hW1) ▸ hy1.symm)
  · have hu2 : ¬(s₂.table.info n).isUsed = true := fun h =>
      hu ((h1.isUsed_iff hs1).mpr ((h2.isUsed_iff hs2).mp h))
    cases n with
    | global g => exact (h2.charted.roots g).trans (h1.charted.roots g).symm
    | inst _ | block _ | terminator _ =>
      rw [h1.bare _ (by simp) (by simpa using hu), h2.bare _ (by simp) (by simpa using hu2)]

theorem Standing.alike (h1 : c.Standing roots R U B₁ s₁) (h2 : c.Standing roots R U B₂ s₂)
    (hs1 : c.Served R U s₁.table) (hs2 : c.Served R U s₂.table)
    (hsc : ∀ n, (s₂.table.info n).scope = (s₁.table.info n).scope)
    (hg : s₂.table.guards = s₁.table.guards) : s₁.table.Alike s₂.table := by
  have hf1 := h1.charted.fits
  have hf2 := h2.charted.fits
  have hu : ∀ n, (s₂.table.info n).isUsed = (s₁.table.info n).isUsed := fun n =>
    Bool.eq_iff_iff.mpr ((h2.isUsed_iff hs2).trans (h1.isUsed_iff hs1).symm)
  have hv : ∀ n, (s₂.table.info n).usedScope = (s₁.table.info n).usedScope := fun n => by
    simp only [ValueInfo.usedScope, hu, hsc]
  have hr : ∀ {xs ys : Array ValueInfo} {k : Nat}, ys.size = xs.size →
      (ys[k]?.getD .unknown).usedScope = (xs[k]?.getD .unknown).usedScope →
      ys[k]?.map ValueInfo.usedScope = xs[k]?.map ValueInfo.usedScope := by
    intro xs ys k hs hk
    by_cases hlt : k < xs.size
    · have hlt' : k < ys.size := hs ▸ hlt
      simpa [hlt, hlt'] using hk
    · simp [hlt, hs]
  refine ⟨fun i => ?_, fun g => ?_, fun b => by simp [Classification.guardsAt, hg]⟩
  · exact hr (hf2.insts.trans hf1.insts.symm) (hv (.inst i))
  · exact hr (hf2.globals.trans hf1.globals.symm) (hv (.global g))

theorem Exact.forced_eq {E : BlockId → Scope → Prop} {t1 t2 : Classification} (h1 : c.Exact E t1)
    (h2 : c.Exact E t2) : t2.forced = t1.forced ∧ t2.guards = t1.guards := by
  have hr : ∀ {xs ys : Array ScopeSet}, ys.size = xs.size →
      (∀ (k : Nat) (x : Scope), (ys[k]?.getD ScopeSet.empty).contains x = true ↔
        (xs[k]?.getD ScopeSet.empty).contains x = true) →
      ys = xs := by
    intro xs ys hs h
    refine Array.ext hs fun k hk hk' => ScopeSet.ext_contains fun x => ?_
    simpa [hk, hk'] using h k x
  have hf : ∀ b x, (t2.forcedAt b).contains x = true ↔ (t1.forcedAt b).contains x = true :=
    fun b x => h2.forcedAt_iff.trans h1.forcedAt_iff.symm
  refine ⟨hr (h2.fits.forced.trans h1.fits.forced.symm) hf,
    hr (h2.fits.guards.trans h1.fits.guards.symm) fun q x => ?_⟩
  refine h2.guardsAt_iff.trans (Iff.trans ?_ h1.guardsAt_iff.symm)
  simp only [hf]

section Tables

variable {table : ScopeTable} {sinks : List Endpoint}

theorem mem_demands {r : Request} : r ∈ table.demands ↔ ∃ e ∈ table.sinks, e.demand = r :=
  List.mem_map

theorem unread_demands (hre : ∀ e ∈ table.sinks, ∀ (i : InstId) (inst : Inst),
      c.func.insts[i]? = some inst → c.program.writesSink e.name inst.op = true →
      i ∉ c.func.readInsts) : c.Unread table.demands := by
  rintro i x ⟨name, flags, hr, site, hs, rfl⟩
  obtain ⟨e, he, heq⟩ := mem_demands.mp hr
  obtain ⟨rfl, -, -⟩ := Request.sink.inj heq
  obtain ⟨inst, hi, -, -, ⟨v, addr, hop, hso, hg⟩ | ⟨callee, args, hop, hc⟩⟩ :=
    mem_sinkSites hs
  · exact hre e he _ inst hi (by simp [hop, Program.writesSink, hso, hg])
  · exact hre e he _ inst hi (by simp [hop, Program.writesSink, hc])

theorem writes_unique (hna : (table.sinks.map Endpoint.name).Nodup) {i : InstId} {x y : Scope}
    (hx : c.Writes table.demands i x) (hy : c.Writes table.demands i y) : x = y := by
  obtain ⟨name, flags, hr, site, hs, rfl⟩ := hx
  obtain ⟨name', flags', hr', site', hs', heq⟩ := hy
  obtain ⟨e, he, hd⟩ := mem_demands.mp hr
  obtain ⟨e', he', hd'⟩ := mem_demands.mp hr'
  obtain ⟨rfl, rfl, rfl⟩ := Request.sink.inj hd
  obtain ⟨rfl, rfl, rfl⟩ := Request.sink.inj hd'
  by_cases hn : e.name = e'.name
  · rw [List.inj_on_of_nodup_map hna he he' hn]
  · exact absurd heq.symm (sinkSites_disjoint hs hs' hn)

/-- Declaring roots alone leaves a state from which the sinks may be taken in any order. -/
theorem standing_of_declares {requests : List Request} (hro : ∀ r ∈ requests, r.isRoot = true)
    (h : c.Responses requests c.openSession ⟨s, []⟩) :
    c.Standing (Request.rootScope c.program requests) R (fun n => (s.table.info n).isUsed = true)
      (fun _ => False) s := by
  obtain ⟨globals, ht, -⟩ := h.declares hro (initial_sound (n := 0)).fits
  have hb : ∀ n, (∀ g, n ≠ .global g) → s.table.info n = .unknown := by
    intro n hn
    rw [← info_initial c n]
    show Classification.info (Session.state ⟨s, []⟩).table n = _
    rw [ht]
    cases n with
    | global g => exact absurd rfl (hn g)
    | inst _ | block _ | terminator _ => rfl
  have hp : s.problems = [] := by
    have key : ∀ {a b : Session} {requests : List Request}, c.Responses requests a b →
        (∀ r ∈ requests, r.isRoot = true) → b.state.problems = a.state.problems := by
      intro a b requests h
      induction h with
      | nil => exact fun _ => rfl
      | cons hr _ ih =>
        intro hro
        rw [ih fun r hr => hro r (List.mem_cons_of_mem _ hr)]
        have hroo := hro _ List.mem_cons_self
        cases hr with
        | root | rootNamed | rootUnknown => rfl
        | sink | sinkUnknown | value | block | snapshot | restore | scopeOf => cases hroo
    exact key h hro
  refine ⟨charted_of_declares h hro fun _ _ => .root, fun n hn => .inl hn, ⟨by simp [hp], fun p => ?_⟩,
    fun n hn _ => by rw [hb n hn]; rfl⟩
  have hu : ∀ i, ¬(s.table.inst i).isUsed = true := by
    intro i hi
    rw [show s.table.inst i = .unknown from hb (.inst i) (by simp)] at hi
    cases hi
  simp [hp, hu]

theorem served_of_responses (hp : c.strategy = .plain) (hpe : sinks.Perm table.sinks)
    (hf : ∀ e ∈ table.sinks, e.flags.isEmpty = false)
    (h1 : c.Standing roots table.demands U B s₁)
    (hU : ∀ n, U n → (s₁.table.info n).isUsed = true)
    (h : c.Responses (sinks.map Endpoint.demand) ⟨s₁, []⟩ ⟨s₂, []⟩) :
    c.Served table.demands U s₂.table := by
  have hm : ∀ r, r ∈ sinks.map Endpoint.demand ↔ r ∈ table.demands :=
    fun r => (hpe.map Endpoint.demand).mem_iff
  have hs : ∀ r ∈ sinks.map Endpoint.demand, r.isSeed = true := by
    intro r hr
    obtain ⟨e, he, rfl⟩ := mem_demands.mp ((hm r).mp hr)
    simp [Endpoint.demand, Request.isSeed, hf e he]
  have hw : ∀ i x, c.Writes (sinks.map Endpoint.demand) i x ↔ c.Writes table.demands i x := by
    intro i x
    simp only [Writes, hm]
  obtain ⟨-, hu⟩ := h.charted (placesBy_plain hp) hs (fun i x => (hw i x).mp) h1.charted
  refine ⟨fun n hn => hu n ?_, fun i x hW => ?_⟩
  · simp only [hm]
    exact hn.imp_left (hU n)
  · exact h.isPinned (placesBy_plain hp) hs (fun i x => (hw i x).mp) h1.charted
      (.inr ((hw i x).mpr hW))

/-- After all sinks, in any order, the table is exact for the requests of the scope table. -/
theorem exact_of_responses (hc : c.ParentsInRange) (hv : table.validate = .ok ())
    (hp : sinks.Perm table.sinks)
    (h : c.Responses table.declarations c.openSession ⟨s₁, []⟩)
    (h' : c.Responses (sinks.map Endpoint.demand) ⟨s₁, []⟩ ⟨s₂, []⟩) :
    c.Exact (c.DemandsOf (table.declarations ++ table.demands)) s₂.table := by
  have hm : ∀ r, r ∈ table.declarations ++ sinks.map Endpoint.demand ↔
      r ∈ table.declarations ++ table.demands := by
    intro r
    rw [List.mem_append, List.mem_append]
    exact or_congr_right (hp.map Endpoint.demand).mem_iff
  have hk : ∀ r ∈ table.declarations ++ sinks.map Endpoint.demand,
      r.isRoot = true ∨ ∃ e : Endpoint, r = e.demand := by
    intro r hr
    rcases List.mem_append.mp hr with hr | hr
    · obtain ⟨e, -, rfl⟩ := List.mem_map.mp hr
      exact .inl rfl
    · obtain ⟨e, -, rfl⟩ := List.mem_map.mp hr
      exact .inr ⟨e, rfl⟩
  have hl : ∀ r ∈ table.declarations ++ sinks.map Endpoint.demand, ∀ b x, c.Demands r b x →
      x.val < Scope.limit := by
    intro r hr b x hd
    rcases List.mem_append.mp ((hm r).mp hr) with hr | hr
    · obtain ⟨e, -, rfl⟩ := List.mem_map.mp hr
      exact hd.elim
    · obtain ⟨e, he, rfl⟩ := mem_demands.mp hr
      obtain ⟨hlt, hle⟩ := ScopeTable.declares_of_mentioned hv (s := e.scope) (by
        simp only [ScopeTable.mentioned, List.mem_append]
        exact .inl (.inr (List.mem_map_of_mem he)))
      rw [hd.1]
      exact Nat.lt_of_lt_of_le hlt hle
  have ht := (h.append h').tracks hc hl (tracks_openSession c)
  rw [Journal.foldl_note hk] at ht
  refine ht.current.congr ht.current.fits rfl rfl fun b x => ?_
  simp only [DemandsOf, List.nil_append, hm]

/-- A classification of all sinks of a table, in some order, that began when its roots were
declared. -/
structure Finished (c : Classifier) (table : ScopeTable) (s₁ : State) (sinks : List Endpoint)
    (results : List SinkResult) (s₂ : State) : Prop where
  perm : sinks.Perm table.sinks
  standing : c.Standing (Request.rootScope c.program table.declarations) table.demands
    (fun n => (s₁.table.info n).isUsed = true)
    (fun p => ∃ e ∈ table.sinks, c.sinkSites e.name = [] ∧ p = .sinkNotFound e.name) s₂
  served : c.Served table.demands (fun n => (s₁.table.info n).isUsed = true) s₂.table
  exact : c.Exact (c.DemandsOf (table.declarations ++ table.demands)) s₂.table
  answers : List.Forall₂ (fun e r => r.name = e.name ∧
    c.Answers (Request.rootScope c.program table.declarations) e r.write) sinks results

theorem sat_classifySinks_finished (hpl : c.strategy = .plain) (hc : c.ParentsInRange)
    (hv : table.validate = .ok ()) (hn : (table.sinks.map Endpoint.name).Nodup)
    (hf : ∀ e ∈ table.sinks, e.flags.isEmpty = false) (hre : c.Unread table.demands)
    (hp : sinks.Perm table.sinks)
    (hro : c.Responses table.declarations c.openSession ⟨s₁, []⟩) :
    Act.Sat (c.Fails table.demands) (c.classifySinks sinks) s₁ fun results s₂ =>
      c.Finished table s₁ sinks results s₂ := by
  have hi : ∀ r ∈ table.declarations, r.isRoot = true := by
    intro r hr
    obtain ⟨e, -, rfl⟩ := List.mem_map.mp hr
    rfl
  have hst := standing_of_declares (R := table.demands) hi hro
  have hs := sat_classifySinks_standing hpl hre
    (fun e he => mem_demands.mpr ⟨e, hp.mem_iff.mp he, rfl⟩)
    (fun e he => hf e (hp.mem_iff.mp he))
    ((hp.map Endpoint.name).nodup_iff.mpr hn) hst (fun _ _ => id)
  refine (hs.and (sat_sinks_responds sinks)).mono ?_
  rintro results s₂ ⟨⟨hs, ha⟩, hsi⟩
  refine ⟨hp, hs.congr fun p => ?_, ?_, ?_, ha⟩
  · simp only [hp.mem_iff, false_or]
  · exact served_of_responses hpl hp hf hst (fun _ => id) hsi
  · exact exact_of_responses hc hv hp hro hsi

end Tables

end Classifier

/-- Two splits that differ only in the order of the answers and of the problems, and in flags that
are of no use. -/
structure SplitOutput.Reordered (out out' : SplitOutput) : Prop where
  partitions : out'.partitions = out.partitions
  transfers : out'.transfers = out.transfers
  fanout : out'.fanout = out.fanout
  sinks : out'.sinks.Perm out.sinks
  scopes : ∀ n, (out'.classification.info n).scope = (out.classification.info n).scope
  forced : out'.classification.forced = out.classification.forced
  guards : out'.classification.guards = out.classification.guards
  problems : out'.problems.Perm out.problems

/-- Two runs that fail with the same fault, or come to answers that are related. -/
inductive AgreeUpTo {α : Type} (R : α → α → Prop) : Except Fault α → Except Fault α → Prop
  | ok {a b : α} : R a b → AgreeUpTo R (.ok a) (.ok b)
  | error (e : Fault) : AgreeUpTo R (.error e) (.error e)

theorem AgreeUpTo.exists_ok {α : Type} {R : α → α → Prop} {x y : Except Fault α}
    (h : AgreeUpTo R x y) (hx : x.isOk = true) : ∃ a b, x = .ok a ∧ y = .ok b ∧ R a b := by
  cases h with
  | ok h => exact ⟨_, _, rfl, rfl, h⟩
  | error e => cases hx

section Splits

variable {p : Program} {types : TypePool} {f : Function} {table : ScopeTable} {strategy : Strategy}
  {tree : PostDominators} {sinks : List Endpoint}

theorem ScopeTable.validate_perm_sinks (hv : table.validate = .ok ())
    (hp : sinks.Perm table.sinks) : { table with sinks := sinks }.validate = .ok () := by
  have hn : { table with sinks := sinks }.mentioned.find?
      (fun s => !{ table with sinks := sinks }.declares s) = none := by
    rw [List.find?_eq_none]
    intro s hs
    have hm : s ∈ table.mentioned := by
      simp only [mentioned, List.mem_append] at hs ⊢
      rwa [(hp.map Endpoint.scope).mem_iff] at hs
    have hd := declares_of_mentioned hv hm
    show ¬(!table.declares s) = true
    simp [declares, hd]
  rw [validate, hn]

theorem Classifier.Finished.reordered {c : Classifier} {s₁ s₂ s3 : Classifier.State}
    {sinks2 sinks3 : List Endpoint} {results2 results3 : List SinkResult}
    (hp : c.strategy = .plain) (hn : (table.sinks.map Endpoint.name).Nodup)
    (hr : c.Unread table.demands) (h2 : c.Finished table s₁ sinks2 results2 s₂)
    (h3 : c.Finished table s₁ sinks3 results3 s3) :
    s₂.table.Alike s3.table ∧ results3.Perm results2 ∧ s3.problems.Perm s₂.problems ∧
      (∀ n, (s3.table.info n).scope = (s₂.table.info n).scope) ∧
      s3.table.forced = s₂.table.forced ∧ s3.table.guards = s₂.table.guards := by
  have hs := h2.standing.scope_eq hp hr (fun _ _ _ => writes_unique hn) h3.standing
    h2.served h3.served
  obtain ⟨hf, hg⟩ := h2.exact.forced_eq h3.exact
  have hal := h2.standing.alike h3.standing h2.served h3.served hs hg
  refine ⟨hal, ?_, ?_, hs, hf, hg⟩
  · refine List.rel_perm_imp ?_ h3.answers h2.answers (h3.perm.trans h2.perm.symm)
    rintro e r r' ⟨hna, ha⟩ ⟨hn', ha'⟩
    have hw := ha.unique ha'
    cases r
    cases r'
    simp_all
  · rw [List.perm_ext_iff_of_nodup h3.standing.noted.nodup h2.standing.noted.nodup]
    intro problem
    rw [h3.standing.noted.mem, h2.standing.noted.mem]
    refine or_congr_right (exists_congr fun i => and_congr_left fun _ => ?_)
    exact (h3.standing.isUsed_iff (n := .inst i) h3.served).trans
      (h2.standing.isUsed_iff (n := .inst i) h2.served).symm

theorem Classifier.classifyTable_run (c : Classifier) (table : ScopeTable) (s : Classifier.State) :
    (c.classifyTable table (pure ())).run s =
      match (table.roots.forM fun e => c.declareRootNamed e.name e.scope e.flags).run s with
      | (.error e, t) => (.error e, t)
      | (.ok _, s₁) =>
        match (c.classifySinks table.sinks).run s₁ with
        | (.error e, t) => (.error e, t)
        | (.ok results, s₂) => (.ok ((), results), s₂) := by
  have hp : ∀ {α : Type} (a : α) (t : Classifier.State),
      (pure a : Act Classifier.State α).run t = (.ok a, t) := fun _ _ => rfl
  simp only [classifyTable, Act.run_bind, hp]
  rcases (table.roots.forM fun e => c.declareRootNamed e.name e.scope e.flags).run s
    with ⟨_ | _, s₁⟩
  · rfl
  · simp only
    rcases (c.classifySinks table.sinks).run s₁ with ⟨_ | _, s₂⟩ <;> rfl

/-- With the sinks in another order classification comes to the same, or still fails. -/
theorem Classifier.classifyTable_perm_sinks {c : Classifier} (hp : c.strategy = .plain)
    (hc : c.ParentsInRange) (hv : table.validate = .ok ())
    (hn : (table.sinks.map Endpoint.name).Nodup)
    (hf : ∀ e ∈ table.sinks, e.flags.isEmpty = false) (hre : c.Unread table.demands)
    (hpe : sinks.Perm table.sinks) :
    (∃ e t2 t3, (c.classifyTable table (pure ())).run c.initial = (.error e, t2) ∧
      (c.classifyTable { table with sinks := sinks } (pure ())).run c.initial = (.error e, t3)) ∨
    ∃ s₁ results2 s₂ results3 s3,
      (c.classifyTable table (pure ())).run c.initial = (.ok ((), results2), s₂) ∧
      (c.classifyTable { table with sinks := sinks } (pure ())).run c.initial
        = (.ok ((), results3), s3) ∧
      c.Finished table s₁ table.sinks results2 s₂ ∧ c.Finished table s₁ sinks results3 s3 := by
  have hd := sat_roots_responds (c := c) (s := c.initial) table.roots
  simp only [classifyTable_run]
  rcases hr1 : (table.roots.forM fun e => c.declareRootNamed e.name e.scope e.flags).run
    c.initial with ⟨e | ⟨⟩, s₁⟩
  · exact .inl ⟨e, s₁, s₁, rfl, rfl⟩
  · have hr : c.Responses table.declarations c.openSession ⟨s₁, []⟩ := hd.of_run hr1
    have hs2 := sat_classifySinks_finished hp hc hv hn hf hre (.refl _) hr
    have hs3 := sat_classifySinks_finished hp hc hv hn hf hre hpe hr
    unfold Act.Sat at hs2 hs3
    simp only
    revert hs2 hs3
    rcases (c.classifySinks table.sinks).run s₁ with ⟨e2 | results2, s₂⟩ <;>
      rcases (c.classifySinks sinks).run s₁ with ⟨e3 | results3, s3⟩ <;> intro hs2 hs3
    · obtain rfl : e2 = e3 := hs2.1.trans hs3.1.symm
      exact .inl ⟨e2, s₂, s3, rfl, rfl⟩
    · exact absurd hs2 (hs3.standing.not_fails hs3.served e2)
    · exact absurd hs3 (hs2.standing.not_fails hs2.served e3)
    · exact .inr ⟨s₁, results2, s₂, results3, s3, rfl, rfl, hs2, hs3⟩

/-- Splitting a function by the same sinks in another order comes to the same output, or fails with
the same fault. -/
theorem split_perm_sinks (hvalid : table.validate = .ok ())
    (hnames : (table.sinks.map Endpoint.name).Nodup)
    (hflags : ∀ e ∈ table.sinks, e.flags.isEmpty = false)
    (hread : ∀ e ∈ table.sinks, ∀ (i : InstId) (inst : Inst), f.insts[i]? = some inst →
      p.writesSink e.name inst.op = true → i ∉ f.readInsts)
    (hperm : sinks.Perm table.sinks) :
    AgreeUpTo (fun answer answer' => answer.1.Reordered answer'.1 ∧ answer'.2 = answer.2)
      (split p types f table .plain) (split p types f { table with sinks := sinks } .plain) := by
  have hvalid' := ScopeTable.validate_perm_sinks hvalid hperm
  cases htree : PostDominators.ofFunction f with
  | error e =>
    rw [split_eq_error_of_tree hvalid htree, split_eq_error_of_tree hvalid' htree]
    exact .error e
  | ok tree =>
    cases hbranches : f.branchesInRange with
    | false =>
      rw [split_eq_error_of_branches hvalid htree hbranches,
        split_eq_error_of_branches hvalid' htree hbranches]
      exact .error _
    | true =>
      have hunread : (classifierOf p f .plain tree).Unread table.demands :=
        Classifier.unread_demands hread
      rw [split_eq_match hvalid htree hbranches, split_eq_match hvalid' htree hbranches]
      obtain ⟨e, t₂, t₃, hrun₂, hrun₃⟩ | ⟨s₁, results₂, s₂, results₃, s₃, hrun₂, hrun₃, h₂, h₃⟩ :=
        Classifier.classifyTable_perm_sinks (c := classifierOf p f .plain tree) rfl
          (Classifier.parentsInRange_classifierOf p f .plain tree) hvalid hnames hflags hunread hperm
      · simp only [hrun₂, hrun₃]
        exact .error e
      · obtain ⟨halike, hresults, hproblems, hscope, hforced, hguards⟩ :=
          h₂.reordered rfl hnames hunread h₃
        simp only [hrun₂, hrun₃]
        have hemit : (Source.emitTable ⟨p, f, s₃.table⟩ tree { table with sinks := sinks }).run
              (Emission.start ⟨p, f, s₃.table⟩ types table.scopes)
            = (Source.emitTable ⟨p, f, s₂.table⟩ tree table).run
              (Emission.start ⟨p, f, s₂.table⟩ types table.scopes) := by
          rw [Source.emitTable_alike halike]
          rfl
        rw [hemit]
        rcases (Source.emitTable ⟨p, f, s₂.table⟩ tree table).run
          (Emission.start ⟨p, f, s₂.table⟩ types table.scopes) with ⟨e | transfers, final⟩
        · exact .error e
        · exact .ok ⟨⟨rfl, rfl, rfl, hresults, hscope, hforced, hguards, hproblems.append_right _⟩,
            rfl⟩

end Splits

/-- Two sinks of two scopes are written under one condition, the later one with a value that both
scopes have a part in. -/
def twoWrites : Function where
  name := "main"
  entry := 0
  blocks := #[⟨[0, 1], some (.branch (.inst 0) 1 2)⟩, ⟨[2, 3, 4], some (.jump 2)⟩, ⟨[], some .ret⟩]
  insts := #[⟨.load (.member 0 []), .bool, 0⟩, ⟨.load (.member 1 []), .int, 0⟩,
    ⟨.binary .add (.inst 1) (.inst 1), .int, 1⟩, ⟨.store (.inst 2) (.member 2 []), .void, 1⟩,
    ⟨.store (.inst 1) (.member 3 []), .void, 1⟩]
  layout := [0, 1, 2]

def twoWritesProgram : Program :=
  ⟨"writes", [.plain "flag" .bool, .plain "tint" .int, .plain "shade" .int, .plain "depth" .int],
    [], [twoWrites]⟩

def twoWritesTable : ScopeTable where
  scopes := ["early", "late"]
  roots := [⟨"flag", .ofNat 0, .ofNat 1⟩, ⟨"tint", .ofNat 0, .empty⟩]
  sinks := [⟨"shade", .ofNat 1, .ofNat 1⟩, ⟨"missing", .ofNat 0, .ofNat 2⟩,
    ⟨"depth", .ofNat 0, .ofNat 2⟩]
  transfers := []

def twoWritesSinks : List Endpoint :=
  [⟨"depth", .ofNat 0, .ofNat 2⟩, ⟨"shade", .ofNat 1, .ofNat 1⟩, ⟨"missing", .ofNat 0, .ofNat 2⟩]

theorem twoWrites_not_read : ∀ e ∈ twoWritesTable.sinks, ∀ (i : InstId) (inst : Inst),
    twoWrites.insts[i]? = some inst → twoWritesProgram.writesSink e.name inst.op = true →
    i ∉ twoWrites.readInsts := by
  intro e _ i inst hin hw hi
  have hr : twoWrites.readInsts = [1, 1, 2, 1, 0] := by decide
  have hc : i = 0 ∨ i = 1 ∨ i = 2 := by
    rw [hr] at hi
    simp only [List.mem_cons, List.not_mem_nil, or_false] at hi
    tauto
  rcases hc with rfl | rfl | rfl <;> cases hin <;> exact Bool.false_ne_true hw

theorem reordered_twoWrites :
    twoWritesTable.validate = .ok () ∧ twoWritesSinks.Perm twoWritesTable.sinks ∧
    ∃ out out' types₁ types₂,
      split twoWritesProgram .empty twoWrites twoWritesTable .plain = .ok (out, types₁) ∧
      split twoWritesProgram .empty twoWrites { twoWritesTable with sinks := twoWritesSinks } .plain
        = .ok (out', types₂) ∧
      out.Reordered out' ∧ types₂ = types₁ := by
  have hperm : twoWritesSinks.Perm twoWritesTable.sinks :=
    (List.perm_append_singleton _ [_, _]).symm
  have hok : (split twoWritesProgram .empty twoWrites twoWritesTable .plain).isOk = true := by
    decide +kernel
  have hagree : AgreeUpTo (fun answer answer' => answer.1.Reordered answer'.1 ∧ answer'.2 = answer.2)
      (split twoWritesProgram .empty twoWrites twoWritesTable .plain)
      (split twoWritesProgram .empty twoWrites { twoWritesTable with sinks := twoWritesSinks }
        .plain) :=
    split_perm_sinks (by decide) (by decide +kernel) (by decide) twoWrites_not_read hperm
  obtain ⟨answer, answer', hout, hout', h⟩ := hagree.exists_ok hok
  exact ⟨by decide, hperm, answer.1, answer'.1, answer.2, answer'.2, hout, hout', h⟩

end Stagewise
