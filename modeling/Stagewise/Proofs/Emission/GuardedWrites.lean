import Stagewise.Proofs.Emission.Guarding
import Stagewise.Proofs.Sketch.Edges
import Stagewise.Proofs.Sketch.Running
import Stagewise.Proofs.Ssa.Check

namespace Stagewise

/-- The instructions along a path that store to a binding, or call a function, with a name of
interest. -/
def Program.writesAlong (p : Program) (f : Function) (loud : String → Bool) (path : List BlockId) :
    List InstId :=
  path.flatMap (f.selected fun inst => (p.writeName? inst.op).any loud)

def Program.Unambiguous (p : Program) (name : String) : Prop :=
  p.globals.countP (·.name == name) ≤ 1 ∧ p.decls.countP (·.name == name) ≤ 1

instance (p : Program) (name : String) : Decidable (p.Unambiguous name) :=
  inferInstanceAs (Decidable (_ ∧ _))

namespace ScopeTable

def isSink (t : ScopeTable) (name : String) : Bool := t.sinks.any (·.name == name)

def requires (t : ScopeTable) (scope : Scope) (name : String) : Bool :=
  t.sinks.any fun e => e.name == name && e.scope == scope

end ScopeTable

def Source.isLoud (src : Source) (loud : String → Bool) (i : InstId) : Bool :=
  src.func.insts[i]?.any fun inst => (src.program.writeName? inst.op).any loud

namespace Draft

variable {src : Source} {loud : String → Bool} {d : Draft} {k : Sketch} {truth : BlockId → Bool}

def origin (d : Draft) (b : BlockId) : BlockId := (d.branches.lookup b).getD b

def CopiesWrite (src : Source) (d : Draft) (e i : InstId) : Prop :=
  (i, .inst e) ∈ d.copies ∧ ∃ inst inst', d.builder.finish.insts[e]? = some inst ∧
    src.func.insts[i]? = some inst' ∧
    d.finish.program.writeName? inst.op = src.program.writeName? inst'.op

/-- A finished part runs through the blocks that its sketch runs through. -/
theorem Figures.runs (h : d.Figures src loud k) (ha : ∀ a t : Nat, k.Edge a t → t < k.size)
    {b : Nat} {path : List BlockId} (hb : b < k.size) (hr : k.Runs truth b path) :
    d.builder.finish.Runs (fun b => truth (d.origin b)) b path := by
  have hc : ∀ {b : Nat}, b < k.size →
      d.builder.finish.terminator? b = some ((d.builder.func.terminator? b).getD .ret) := by
    intro b hb
    exact Function.close_terminator? (h.size ▸ hb)
  induction hr with
  | @ret b he =>
    refine .ret ?_
    rw [hc hb]
    have hen := h.ends b
    rcases he with he | he
    · rw [he] at hen
      cases ht : d.builder.func.terminator? b with
      | none => rfl
      | some t => rw [ht] at hen; cases hen
    · rw [he] at hen
      cases ht : d.builder.func.terminator? b with
      | none => rfl
      | some t => rw [ht] at hen; cases hen; rfl
  | @jump b target path he _ ih =>
    have hen := h.ends b
    rw [he] at hen
    have hlt : target < k.size := ha b target ⟨_, he, by simp [Exit.targets]⟩
    refine .jump ?_ (ih hlt)
    rw [hc hb]
    cases ht : d.builder.func.terminator? b with
    | none => rw [ht] at hen; cases hen
    | some t => rw [ht] at hen; cases hen; rfl
  | @branch b source ifTrue ifFalse path he _ ih =>
    have hen := h.ends b
    rw [he] at hen
    cases ht : d.builder.func.terminator? b with
    | none => rw [ht] at hen; cases hen
    | some t =>
      rw [ht] at hen
      cases hen with
      | branch cond _ _ hl =>
        have ho : d.origin b = source := by rw [origin, hl]; rfl
        have ht' : d.builder.finish.terminator? b = some (.branch cond ifTrue ifFalse) := by
          rw [hc hb, ht]
          rfl
        refine .branch ht' ?_
        simp only [ho]
        refine ih ?_
        split
        · exact ha b ifTrue ⟨_, he, by simp [Exit.targets]⟩
        · exact ha b ifFalse ⟨_, he, by simp [Exit.targets]⟩

theorem copiesWrite_of_marks {es : List InstId} {ms : List Mark}
    (h : List.Forall₂ (d.Marks src) es ms) :
    List.Forall₂ (d.CopiesWrite src)
      (es.filter fun e => d.builder.func.insts[e]?.any fun inst =>
        (d.program.writeName? inst.op).any loud)
      (Sketch.writesOf (src.isLoud loud) ms) := by
  induction h with
  | nil => exact .nil
  | @cons e m es ms hm _ ih =>
    cases hm with
    | @phi inst incoming hi hop =>
      have hno : d.program.writeName? (.phi incoming) = none := rfl
      simpa [List.filter_cons, hi, hop, hno] using ih
    | @write i inst inst' name hi hsr hw hco hn hn' =>
      have hp : d.builder.func.insts[e]?.any
          (fun inst => (d.program.writeName? inst.op).any loud) = loud name := by
        simp [hi, hn]
      have hs : src.isLoud loud i = loud name := by simp [Source.isLoud, hsr, hn']
      cases hl : loud name with
      | false =>
        rw [hl] at hp hs
        simpa [List.filter_cons, hp, Sketch.writesOf_write, hs] using ih
      | true =>
        rw [hl] at hp hs
        have hc : d.CopiesWrite src e i :=
          ⟨hco, inst, inst', hi, hsr, hn.trans hn'.symm⟩
        simpa [List.filter_cons, hp, Sketch.writesOf_write, hs] using ⟨hc, ih⟩

/-- Block by block, the writes of a finished part are copies of those that its sketch marks. -/
theorem Figures.copiesWrite (h : d.Figures src loud k) (b : BlockId) :
    List.Forall₂ (d.CopiesWrite src)
      (d.builder.finish.selected (fun inst => (d.finish.program.writeName? inst.op).any loud) b)
      (Sketch.writesOf (src.isLoud loud) (k.marks b)) := by
  have hp : (d.builder.func.selected (d.program.shows loud) b).filter
      (fun e => d.builder.func.insts[e]?.any fun inst => (d.program.writeName? inst.op).any loud)
      = d.builder.finish.selected
        (fun inst => (d.finish.program.writeName? inst.op).any loud) b := by
    rw [Function.selected, Function.selected, List.filter_filter]
    show _ = (d.builder.func.close.instsOf b).filter _
    rw [Function.close_instsOf]
    refine List.filter_congr fun e _ => ?_
    show _ = d.builder.func.insts[e]?.any fun inst => (d.program.writeName? inst.op).any loud
    cases d.builder.func.insts[e]? with
    | none => rfl
    | some inst => cases hw : (d.program.writeName? inst.op).any loud <;> simp [Program.shows, hw]
  have hs : Sketch.writesOf (src.isLoud loud) ((k.marks b).filter (src.keeps loud))
      = Sketch.writesOf (src.isLoud loud) (k.marks b) := by
    induction k.marks b with
    | nil => rfl
    | cons m ms ih =>
      cases m with
      | phi blocks =>
        have hk : src.keeps loud (.phi blocks) = true := rfl
        simpa [hk] using ih
      | write i =>
        cases hi : src.isLoud loud i with
        | false =>
          have hk : src.keeps loud (.write i) = false := hi
          simpa [Sketch.writesOf_write, hk, hi] using ih
        | true =>
          have hk : src.keeps loud (.write i) = true := hi
          simpa [Sketch.writesOf_write, hk, hi] using ih
  rw [← hp, ← hs]
  exact copiesWrite_of_marks (h.marks b)

theorem Figures.writes (h : d.Figures src loud k) (ha : ∀ a t : Nat, k.Edge a t → t < k.size)
    (hs : 0 < k.size) {ws : List InstId} (hm : k.Makes truth (src.isLoud loud) 0 0 ws) :
    ∃ path, d.builder.finish.Runs (fun b => truth (d.origin b)) d.builder.finish.entry path ∧
      List.Forall₂ (d.CopiesWrite src)
        (d.finish.program.writesAlong d.builder.finish loud path) ws := by
  obtain ⟨rest, hr, rfl⟩ := hm
  have he : d.builder.finish.entry = 0 := h.entry
  refine ⟨0 :: rest, by rw [he]; exact h.runs ha hs hr, ?_⟩
  have hal : ∀ path : List BlockId, List.Forall₂ (d.CopiesWrite src)
      (d.finish.program.writesAlong d.builder.finish loud path)
      (path.flatMap fun b => Sketch.writesOf (src.isLoud loud) (k.marks b)) := by
    intro path
    induction path with
    | nil => exact .nil
    | cons b path ih => exact List.rel_append (h.copiesWrite b) ih
  exact hal (0 :: rest)

end Draft

section Sites

variable {p : Program} {f : Function} {c : Classifier} {name : String}

theorem findIdx?_of_countP_le_one {α : Type} {q : α → Bool} {xs : List α} (ho : xs.countP q ≤ 1)
    {k : Nat} {x : α} (hx : xs[k]? = some x) (hq : q x = true) : xs.findIdx? q = some k := by
  induction xs generalizing k with
  | nil => simp at hx
  | cons y ys ih =>
    rw [List.countP_cons] at ho
    cases k with
    | zero =>
      obtain rfl : y = x := by simpa using hx
      simp [List.findIdx?_cons, hq]
    | succ k =>
      have hm : x ∈ ys := List.mem_of_getElem? (by simpa using hx)
      have hp : 0 < ys.countP q := List.countP_pos_iff.mpr ⟨x, hm, hq⟩
      have hy : q y = false := by
        rw [← Bool.not_eq_true]
        intro hy
        rw [if_pos hy] at ho
        omega
      have ht := ih (by omega) (by simpa using hx)
      simp [List.findIdx?_cons, hy, ht]

theorem Program.isWrite_of_writeName? {op : Operation} (h : p.writeName? op = some name) :
    op.isWrite = true := by
  cases hw : op.isWrite with
  | true => rfl
  | false => rw [p.writeName?_eq_none hw] at h; cases h

/-- Every write to a name is a site of the sink of that name. A site that need not keep its branches
lies on every way from the entry. -/
theorem Classifier.exists_site (ho : c.program.Unambiguous name) {i : InstId} {inst : Inst}
    (hi : c.func.insts[i]? = some inst) (hn : c.program.writeName? inst.op = some name) :
    ∃ site ∈ c.sinkSites name, site.inst = i ∧ site.block = inst.block ∧
      (site.conditional = false →
        c.postDominators.postDominates inst.block c.func.entry = true) := by
  have hlt : i < c.func.numInsts := (Array.getElem?_eq_some_iff.mp hi).1
  obtain ⟨site, hs, hsp⟩ : ∃ site,
      c.sinkSite? (c.program.globalNamed? name) (c.program.declNamed? name) i = some site ∧
      site.inst = i ∧ site.block = inst.block ∧ (site.conditional = false →
        c.postDominators.postDominates inst.block c.func.entry = true) := by
    obtain ⟨op, ty, block⟩ := inst
    cases op with
    | store v addr =>
      obtain ⟨g, hg, hnam⟩ := Option.bind_eq_some_iff.mp hn
      obtain ⟨decl, hd, rfl⟩ := Option.map_eq_some_iff.mp hnam
      have hna : c.program.globalNamed? decl.name = some g :=
        findIdx?_of_countP_le_one ho.1 hd (beq_self_eq_true _)
      refine ⟨⟨i, block, v, v :: addr.indexValues,
        !c.postDominators.postDominates block c.func.entry⟩, ?_, rfl, rfl, by simp⟩
      simp [sinkSite?, hi, hna, hg]
    | call callee args =>
      cases callee with
      | direct callee =>
        obtain ⟨decl, hd, rfl⟩ := Option.map_eq_some_iff.mp hn
        have hna : c.program.declNamed? decl.name = some callee :=
          findIdx?_of_countP_le_one ho.2 hd (beq_self_eq_true _)
        refine ⟨⟨i, block, .inst i, args, true⟩, ?_, rfl, rfl, by simp⟩
        simp [sinkSite?, hi, hna]
      | indirect target => cases hn
    | _ => cases hn
  exact ⟨site, List.mem_filterMap.mpr ⟨i, List.mem_range.mpr hlt, hs⟩, hsp⟩

end Sites

/-- A classified source in which the writes of every sink of a table are where they are required. -/
structure Source.Seeded (src : Source) (c : Classifier) (table : ScopeTable) : Prop where
  program : c.program = src.program
  func : c.func = src.func
  unambiguous : ∀ e ∈ table.sinks, src.program.Unambiguous e.name
  flags : ∀ e ∈ table.sinks, e.flags.isEmpty = false
  seeds : ∀ e ∈ table.sinks, c.Seeds src.table e

namespace Source.Seeded

variable {src : Source} {c : Classifier} {table : ScopeTable} {scope : Scope}
  {tree : PostDominators} {strategy : Strategy}

theorem site (h : src.Seeded c table) {i : InstId} {inst : Inst} {e : Endpoint}
    (hi : src.func.insts[i]? = some inst) (hn : src.program.writeName? inst.op = some e.name)
    (he : e ∈ table.sinks) : src.table.instScope i = some e.scope ∧
      ((src.table.forcedAt inst.block).contains e.scope = true ∨
        c.postDominators.postDominates inst.block src.func.entry = true) := by
  obtain ⟨site, hsi, rfl, hb, hco⟩ := Classifier.exists_site
    (h.program ▸ h.unambiguous e he) (h.func ▸ hi) (h.program ▸ hn)
  have hs := h.seeds e he
  constructor
  · have hin := (hs.fixed site hsi).inst_eq
    simp [Classification.instScope, hin, ValueInfo.usedScope, ValueInfo.isUsed, h.flags e he]
  · cases hc : site.conditional with
    | true => exact .inl (hb ▸ hs.forced site hsi hc)
    | false => exact .inr (h.func ▸ hco hc)

theorem writesIn_and_isLoud (h : src.Seeded c table) (scope : Scope) (i : InstId) :
    (src.isLoud table.isSink i && src.writesIn scope i) = src.isLoud (table.requires scope) i := by
  cases hin : src.func.insts[i]? with
  | none => simp [Source.isLoud, hin]
  | some inst =>
    cases hna : src.program.writeName? inst.op with
    | none => simp [Source.isLoud, hin, hna]
    | some name =>
      have hw : inst.op.isWrite = true := Program.isWrite_of_writeName? hna
      have hs : ∀ e ∈ table.sinks, e.name = name → src.table.instScope i = some e.scope :=
        fun e he hn => (h.site hin (hn ▸ hna) he).1
      have hl : src.isLoud table.isSink i = table.isSink name := by
        simp [Source.isLoud, hin, hna]
      have hr : src.isLoud (table.requires scope) i = table.requires scope name := by
        simp [Source.isLoud, hin, hna]
      rw [hl, hr, Bool.eq_iff_iff, Bool.and_eq_true]
      simp only [ScopeTable.isSink, ScopeTable.requires, List.any_eq_true, beq_iff_eq,
        Bool.and_eq_true, Source.writesIn, hin, Option.any_some, hw, decide_eq_true_eq,
        and_true]
      constructor
      · rintro ⟨⟨e, he, hn⟩, hi⟩
        exact ⟨e, he, hn, Option.mem_unique (hs e he hn) hi⟩
      · rintro ⟨e, he, hn, rfl⟩
        exact ⟨⟨e, he, hn⟩, hs e he hn⟩

theorem quiet (h : src.Seeded (classifierOf src.program src.func strategy tree) table)
    (hs : src.func.Ssa src.program) (hr : (Route.mk src.func tree).LoopFree) {b : BlockId}
    (hfo : ¬(src.table.forcedAt b).contains scope = true)
    (hpo : ¬src.func.PostDominates b src.func.entry) :
    ((src.plan scope).writes b).filter (src.isLoud table.isSink) = [] := by
  rw [List.filter_eq_nil_iff]
  intro i hi hlo
  have hl := List.mem_filter.mp hi
  obtain ⟨inst, hin, rfl⟩ := hs.listed b i hl.1
  have hm : src.isLoud (table.requires scope) i = true := by
    rw [← h.writesIn_and_isLoud, hlo, hl.2]
    rfl
  simp only [Source.isLoud, hin, Option.any_some, Option.any_eq_true, ScopeTable.requires,
    List.any_eq_true, Bool.and_eq_true, beq_iff_eq] at hm
  obtain ⟨name, hn, e, he, rfl, rfl⟩ := hm
  rcases (h.site hin hn he).2 with hf | hp
  · exact hfo hf
  · exact hpo ((PostDominators.Exact.postDominates_iff hs.targets hr.tree
      (hr.canReturn hs.entry_lt)).mp hp)

theorem loudWrites_eq (h : src.Seeded c table) (scope : Scope) (truth : BlockId → Bool)
    (it : Itinerary) :
    Sketch.loudWrites (src.plan scope) truth (src.isLoud table.isSink) it
      = src.program.writesAlong src.func (table.requires scope) (it.chosen truth) := by
  refine List.flatMap_congr fun b _ => ?_
  show ((src.func.instsOf b).filter _).filter _ = (src.func.instsOf b).filter _
  rw [List.filter_filter]
  exact List.filter_congr fun i _ => h.writesIn_and_isLoud scope i

theorem makes_sketch {n : Nat}
    (h : src.Seeded (classifierOf src.program src.func strategy tree) table)
    (hss : src.func.Ssa src.program) (hr : (Route.mk src.func tree).LoopFree)
    (hgu : (classifierOf src.program src.func strategy tree).Guarding src.table [])
    (hn : (Route.itinerary ⟨src.func, tree⟩).entered.Nodup)
    (hin : (ScopeSet.first n).contains scope = true) :
    (0 < (src.sketch tree n scope).size ∧ ∀ a t : Nat, (src.sketch tree n scope).Edge a t →
        t < (src.sketch tree n scope).size) ∧
      ∀ truth, (src.sketch tree n scope).Makes truth (src.isLoud table.isSink) 0 0
        (src.program.writesAlong src.func (table.requires scope)
          ((Route.itinerary ⟨src.func, tree⟩).chosen truth)) := by
  have hg := Source.guarded_plan hgu (ScopeSet.lt_of_contains hin)
    fun b hb hp => h.quiet hss hr hb hp
  have hu := Route.unfolds_itinerary hr hss.entry_lt
  have ho := Route.orderly_itinerary hr hss.entry_lt hg (.inr hn)
  have hs : src.sketch tree n scope
      = (Route.itinerary ⟨src.func, tree⟩).draw (src.plan scope) true none .empty := if_pos hin
  rw [hs]
  have ha := (Sketch.drawn_draw hu true ho (Itinerary.nodup_rejoined hn _)
    (by simp) Sketch.apt_empty none).1.adds hn
  refine ⟨⟨Nat.lt_of_lt_of_le Nat.one_pos ha.size_le, fun a t hat => ?_⟩, fun truth => ?_⟩
  · rcases ha.edges a t hat with ⟨e, he, -⟩ | ⟨-, ht | ⟨-, j, hj, -⟩⟩
    · cases he
    · exact ht.2
    · cases hj
  · rw [← h.loudWrites_eq]
    exact Sketch.makes_draw hu ho hn (fun _ hb => hb) truth

end Source.Seeded

variable {p : Program} {types types' : TypePool} {f : Function} {table : ScopeTable}
  {out : SplitOutput}

/-- In a function without loops that a walk of each arm once goes through without coming to a block
twice, guarded writes stay guarded: whichever way the branches go, the part of a scope makes the
writes to sinks that are required in the scope and that the function makes, in the same order. -/
theorem guardedWrites_split (hssa : f.Ssa p) (hloopFree : f.LoopFree) (hterminated : f.Terminated)
    (honce : f.EntersOnce) (hsinks : (table.sinks.map Endpoint.name).Nodup)
    (hflags : ∀ e ∈ table.sinks, e.flags.isEmpty = false)
    (hone : ∀ e ∈ table.sinks, p.Unambiguous e.name)
    (hsplit : split p types f table .plain = .ok (out, types'))
    (hrecords : ∀ l ∈ out.transfers, table.isSink l.name = false) :
    ∃ tree state final,
      Splits p types f table .plain tree state out.sinks out.transfers final ∧
      out.partitions = final.partitions ∧
      ∀ scope : Scope, scope.val < table.size → ∃ d, final.drafts[scope.val]? = some d ∧
        ∀ truth, ∃ path path', f.Runs truth f.entry path ∧
          d.builder.finish.Runs (fun b => truth (d.origin b)) d.builder.finish.entry path' ∧
          List.Forall₂ (d.CopiesWrite ⟨p, f, state.table⟩)
            (d.finish.program.writesAlong d.builder.finish table.isSink path')
            (p.writesAlong f (table.requires scope) path) := by
  obtain ⟨tree, state, sinks, transfers, final, hs, rfl, rfl⟩ := exists_splits_of_split_eq hsplit
  refine ⟨tree, state, final, hs, rfl, fun scope hscope => ?_⟩
  have hr := hs.loopFree hssa hloopFree hterminated
  have hnodup := hs.nodup_entered honce
  have hguarding := hs.guarding hssa
  have hparents := Classifier.parentsInRange_classifierOf p f .plain tree
  obtain ⟨-, hseeds⟩ :=
    (Classifier.sat_classifyTable_seeds hssa hparents rfl hs.valid hsinks).of_run hs.classified
  have hseeded : Source.Seeded ⟨p, f, state.table⟩ (classifierOf p f .plain tree) table :=
    ⟨rfl, rfl, hone, hflags, hseeds⟩
  obtain ⟨hsize, hfigures, -⟩ := (Source.sat_emitTable_figures tree table types).of_run hs.emitted
    hrecords
  have hd := Array.getElem?_eq_getElem (hsize ▸ hscope : scope.val < final.drafts.size)
  refine ⟨_, hd, fun truth => ⟨(Route.itinerary ⟨f, tree⟩).chosen truth, ?_⟩⟩
  have hruns := ((Route.unfolds_itinerary hr hssa.entry_lt).runs hr truth).2 rfl
  have hfig := hfigures scope _ hd
  by_cases hin : (ScopeSet.first table.scopes.length).contains scope = true
  · obtain ⟨⟨hpos, haims⟩, hmakes⟩ := hseeded.makes_sketch hssa hr hguarding hnodup hin
    obtain ⟨path', hruns', hwrites⟩ := hfig.writes haims hpos (hmakes truth)
    exact ⟨path', hruns, hruns', hwrites⟩
  · -- no sink is required in a scope that the walk does not know
    have hnever : table.requires scope = fun _ => false := by
      funext name
      simp only [ScopeTable.requires, List.any_eq_false, Bool.and_eq_true, beq_iff_eq]
      rintro e he ⟨-, rfl⟩
      have hmem : e.scope ∈ table.mentioned := by
        simp only [ScopeTable.mentioned, List.mem_append, List.mem_map]
        exact .inl (.inr ⟨e, he, rfl⟩)
      obtain ⟨hlt, hle⟩ := ScopeTable.declares_of_mentioned hs.valid hmem
      exact hin ((ScopeSet.contains_first hle).mpr hlt)
    rw [Source.sketch, if_neg hin] at hfig
    have haims : ∀ a t : Nat, Sketch.empty.Edge a t → t < Sketch.empty.size := by
      rintro a t ⟨e, he, -⟩
      cases he
    obtain ⟨path', hruns', hwrites⟩ := hfig.writes haims Nat.one_pos
      (Sketch.makes_ret (.inl rfl) rfl : Sketch.empty.Makes truth _ 0 0 [])
    refine ⟨path', hruns, hruns', ?_⟩
    have hnil : p.writesAlong f (table.requires scope) ((Route.itinerary ⟨f, tree⟩).chosen truth)
        = [] := by
      simp [hnever, Program.writesAlong, Function.selected]
    rwa [hnil]

def earlyReturns : Function where
  name := "main"
  entry := 0
  blocks := #[⟨[0], some (.branch (.inst 0) 1 2)⟩, ⟨[1], some (.branch (.inst 1) 3 4)⟩,
    ⟨[2], some .ret⟩, ⟨[3], some .ret⟩, ⟨[4], some (.branch (.inst 4) 5 6)⟩, ⟨[5], some (.jump 6)⟩,
    ⟨[6], some .ret⟩]
  insts := #[⟨.load (.member 0 []), .bool, 0⟩, ⟨.load (.member 1 []), .bool, 1⟩,
    ⟨.store (.const ⟨.bool, .bool true⟩) (.member 3 []), .void, 2⟩,
    ⟨.store (.const ⟨.bool, .bool true⟩) (.member 4 []), .void, 3⟩,
    ⟨.load (.member 2 []), .bool, 4⟩, ⟨.store (.inst 1) (.member 4 []), .void, 5⟩,
    ⟨.store (.inst 4) (.member 3 []), .void, 6⟩]
  layout := [0, 1, 2, 3, 4, 5, 6]

def earlyReturnsProgram : Program :=
  ⟨"returns", [.plain "a" .bool, .plain "b" .bool, .plain "c" .bool, .plain "first" .bool,
    .plain "second" .bool], [], [earlyReturns]⟩

def earlyReturnsTable : ScopeTable where
  scopes := ["early", "late"]
  roots := [⟨"a", .ofNat 0, .ofNat 1⟩, ⟨"b", .ofNat 0, .ofNat 1⟩, ⟨"c", .ofNat 0, .ofNat 1⟩]
  sinks := [⟨"first", .ofNat 0, .ofNat 1⟩, ⟨"second", .ofNat 1, .ofNat 1⟩]
  transfers := []

theorem guardedWrites_earlyReturns :
    ∃ out types', split earlyReturnsProgram .empty earlyReturns earlyReturnsTable .plain
        = .ok (out, types') ∧ ∃ tree state final,
      Splits earlyReturnsProgram .empty earlyReturns earlyReturnsTable .plain tree state out.sinks
        out.transfers final ∧
      out.partitions = final.partitions ∧
      ∀ scope : Scope, scope.val < 2 → ∃ d, final.drafts[scope.val]? = some d ∧
        ∀ truth, ∃ path path', earlyReturns.Runs truth 0 path ∧
          d.builder.finish.Runs (fun b => truth (d.origin b)) d.builder.finish.entry path' ∧
          List.Forall₂ (d.CopiesWrite ⟨earlyReturnsProgram, earlyReturns, state.table⟩)
            (d.finish.program.writesAlong d.builder.finish earlyReturnsTable.isSink path')
            (earlyReturnsProgram.writesAlong earlyReturns (earlyReturnsTable.requires scope)
              path) := by
  have hloopFree : earlyReturns.LoopFree := Function.loopFree_of_forward (by decide)
  have hok : (split earlyReturnsProgram .empty earlyReturns earlyReturnsTable .plain).toOption.any
      (fun answer => answer.1.transfers.all fun l => !earlyReturnsTable.isSink l.name) = true := by
    decide +kernel
  obtain ⟨answer, hsplit, hok⟩ := exists_ok_of_any hok
  have hrecords : ∀ l ∈ answer.1.transfers, earlyReturnsTable.isSink l.name = false := by
    simpa using hok
  refine ⟨answer.1, answer.2, hsplit, ?_⟩
  exact guardedWrites_split (Function.ssa_of_test (by decide)) hloopFree (by decide)
    (by decide +kernel) (by decide) (by decide) (by decide) hsplit hrecords

/-- A function of one block is split. Its first part is `part`, and makes the writes `ws'` to sinks
where the writes `ws` are required. -/
def FirstPartWrites (p : Program) (f : Function) (table : ScopeTable) (part : Function)
    (ws ws' : List InstId) : Prop :=
  ∃ out types' first, split p .empty f table .plain = .ok (out, types') ∧
    out.partitions.head? = some first ∧ first.program.functions = [part] ∧
    ∀ truth, f.Runs truth 0 [0] ∧ part.Runs truth 0 [0] ∧
      p.writesAlong f (table.requires (.ofNat 0)) [0] = ws ∧
      first.program.writesAlong part table.isSink [0] = ws'

theorem firstPartWrites_of_test {part : Function}
    {ws ws' : List InstId} (hf : f.terminator? 0 = some .ret)
    (hp : part.terminator? 0 = some .ret)
    (hws : p.writesAlong f (table.requires (.ofNat 0)) [0] = ws)
    (ht : (split p .empty f table .plain).toOption.any (fun answer =>
      answer.1.partitions.head?.any fun first => first.program.functions == [part] &&
        first.program.writesAlong part table.isSink [0] == ws') = true) :
    FirstPartWrites p f table part ws ws' := by
  obtain ⟨answer, ha, hh⟩ := (Option.any_eq_true _ _).mp ht
  obtain ⟨first, hfi, hb⟩ := (Option.any_eq_true _ _).mp hh
  rw [Bool.and_eq_true, beq_iff_eq, beq_iff_eq] at hb
  cases hs : split p .empty f table .plain with
  | error _ => rw [hs] at ha; cases ha
  | ok answer' =>
    rw [hs] at ha
    obtain rfl : answer' = answer := Option.some.inj ha
    exact ⟨answer'.1, answer'.2, first, hs, hfi, hb.1,
      fun truth => ⟨.ret hf, .ret hp, hws, hb.2⟩⟩

def carriedCopy : Function where
  name := "main"
  entry := 0
  blocks := #[⟨[0, 1], some .ret⟩]
  insts := #[⟨.load (.member 0 []), .int, 0⟩, ⟨.store (.inst 0) (.member 1 []), .void, 0⟩]
  layout := [0]

def carriedProgram : Program := ⟨"copy", [.plain "in" .int, .plain "out" .int], [], [carriedCopy]⟩

def carriedTable : ScopeTable where
  scopes := ["early", "late"]
  roots := [⟨"in", .ofNat 0, .ofNat 1⟩]
  sinks := [⟨"out", .ofNat 1, .ofNat 1⟩]
  transfers := [⟨.ofNat 0, .ofNat 1, "out", false⟩]

def carriedPart : Function where
  name := "main"
  entry := 0
  blocks := #[⟨[0, 1], some .ret⟩]
  insts := #[⟨.load (.member 0 []), .int, 0⟩, ⟨.store (.inst 0) (.member 1 [0]), .void, 0⟩]
  layout := [0]

/-- Two bindings have one name. The first store to the second of them is used by the store to the
first. -/
def twinCopy : Function where
  name := "main"
  entry := 0
  blocks := #[⟨[0, 1, 2, 3], some .ret⟩]
  insts := #[⟨.load (.member 0 []), .int, 0⟩, ⟨.store (.inst 0) (.member 2 []), .void, 0⟩,
    ⟨.store (.inst 1) (.member 1 []), .void, 0⟩, ⟨.store (.inst 0) (.member 2 []), .void, 0⟩]
  layout := [0]

def twinProgram : Program :=
  ⟨"twins", [.plain "in" .int, .plain "out" .int, .plain "out" .int], [], [twinCopy]⟩

def twinTable : ScopeTable where
  scopes := ["only"]
  roots := [⟨"in", .ofNat 0, .ofNat 1⟩]
  sinks := [⟨"out", .ofNat 0, .ofNat 1⟩]
  transfers := []

def twinPart : Function where
  name := "main"
  entry := 0
  blocks := #[⟨[0, 1, 2], some .ret⟩]
  insts := #[⟨.load (.member 0 []), .int, 0⟩, ⟨.store (.inst 0) (.member 1 []), .void, 0⟩,
    ⟨.store (.inst 1) (.member 1 []), .void, 0⟩]
  layout := [0]

/-- What has the name of a sink is taken for it. A record of that name: the earlier part of
`carriedCopy` writes to the sink, though the only write to it is required in the later scope. Two
bindings of that name: of the three writes of `twinCopy` to them, only two are in its part, both to
the same binding. -/
theorem ambiguousSink_writes :
    ((carriedCopy.Ssa carriedProgram ∧ carriedCopy.LoopFree ∧ carriedCopy.Terminated ∧
        carriedCopy.EntersOnce ∧ (carriedTable.sinks.map Endpoint.name).Nodup ∧
        ∀ e ∈ carriedTable.sinks, e.flags.isEmpty = false) ∧
      FirstPartWrites carriedProgram carriedCopy carriedTable carriedPart [] [1]) ∧
    (twinCopy.Ssa twinProgram ∧ twinCopy.LoopFree ∧ twinCopy.Terminated ∧ twinCopy.EntersOnce ∧
        (twinTable.sinks.map Endpoint.name).Nodup ∧
        ∀ e ∈ twinTable.sinks, e.flags.isEmpty = false) ∧
      FirstPartWrites twinProgram twinCopy twinTable twinPart [1, 2, 3] [1, 2] := by
  have hcarried : carriedCopy.Ssa carriedProgram := Function.ssa_of_test (by decide)
  have htwin : twinCopy.Ssa twinProgram := Function.ssa_of_test (by decide)
  refine ⟨⟨⟨hcarried, ?_, by decide, by decide +kernel, by decide, by decide⟩, ?_⟩,
    ⟨htwin, ?_, by decide, by decide +kernel, by decide, by decide⟩, ?_⟩
  · exact Function.loopFree_of_forward (by decide)
  · exact firstPartWrites_of_test rfl rfl (by decide) (by decide +kernel)
  · exact Function.loopFree_of_forward (by decide)
  · exact firstPartWrites_of_test rfl rfl (by decide) (by decide +kernel)

end Stagewise
