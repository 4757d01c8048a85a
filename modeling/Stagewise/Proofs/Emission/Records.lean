import Stagewise.Proofs.Emission.Placeholders

namespace Stagewise

/-- The uses of a binding that are stores to the fields of a record in the scope that makes them, or
loads from them in the scope that needs them. -/
inductive TransferLayout.Uses (l : TransferLayout) (x : Scope) (g : GlobalId) : Operation → Prop
  | store {k : Nat} (v : Value) : x = l.src → k < l.fields.length →
      Uses l x g (.store v (.member g [k]))
  | storeElement {k : Nat} (v : Value) (position : Nat) : x = l.src → k < l.fields.length →
      Uses l x g (.store v (.member g [k, position]))
  | load {k : Nat} : x = l.dst → k < l.fields.length → Uses l x g (.load (.member g [k]))
  | loadElement {k : Nat} (v : Value) : x = l.dst → k < l.fields.length →
      Uses l x g (.load (.element g [.fixed k, .dynamic v]))

structure Function.UsesOnly (f : Function) (l : TransferLayout) (x : Scope) (g : GlobalId) : Prop where
  addresses : ∀ inst ∈ f.insts, ∀ addr, inst.op.address? = some addr → addr.global? = some g →
    l.Uses x g inst.op
  operands : ∀ inst ∈ f.insts, .global g ∉ inst.op.operands
  conds : ∀ b, f.cond? b ≠ some (.global g)

theorem Function.close_cond? (f : Function) (b : BlockId) : f.close.cond? b = f.cond? b := by
  by_cases hb : b < f.numBlocks
  · unfold Function.cond?
    rw [close_terminator? hb]
    cases f.terminator? b <;> rfl
  · unfold Function.cond?
    rw [terminator?_eq_none (Nat.not_lt.mp hb),
      terminator?_eq_none (f.close_numBlocks.symm ▸ Nat.not_lt.mp hb)]

namespace Draft

variable {src : Source} {layouts : List TransferLayout} {l : TransferLayout} {x : Scope}
  {L : TransferLayout → Prop} {F : Nat → Prop} {R : InstId → Prop} {d d' : Draft} {op : Operation}
  {g : GlobalId}

structure Native (src : Source) (d : Draft) (op : Operation) : Prop where
  operands : ∀ v ∈ op.operands, v.Sourced src d
  addresses : ∀ addr g, op.address? = some addr → addr.global? = some g → d.Mirrors src g

/-- The bindings and instructions of a part come from the source, or from the records that the part
has. -/
structure Linked (src : Source) (layouts : List TransferLayout) (x : Scope) (d : Draft) : Prop where
  bindings : ∀ decl ∈ d.program.globals,
    (∃ decl' ∈ src.program.globals, decl'.name = decl.name) ∨
      ∃ l ∈ layouts, l.Touches x ∧ decl = .plain l.name l.record
  distinct : (d.program.globals.map GlobalDecl.name).Nodup
  insts : ∀ (e : InstId) (inst : Inst), d.builder.func.insts[e]? = some inst →
    d.Native src inst.op ∨ d.Wires src (· ∈ layouts) (fun _ => True) x inst.op
  conds : ∀ b v, d.builder.func.cond? b = some v → v.Sourced src d

theorem Edits.linked (h : d.Edits src (· ∈ layouts) (fun _ => True) x R d')
    (hc : d.Closed src) (hs : d.Sourced src) : d'.Linked src layouts x := by
  refine ⟨fun decl hd => ?_, h.distinct hs.distinct, fun e inst he => ?_, fun b v hv => ?_⟩
  · rcases h.names decl hd with ho | hn
    · exact .inl (hc.bindings decl ho)
    · exact hn
  · refine (h.written e inst he).imp_left fun ⟨ho, _⟩ => ⟨fun v hv => ?_, fun addr g ha hg => ?_⟩
    · exact (hs.operands e inst ho v hv).of_grown h.bindings
    · have hb := List.getElem?_eq_getElem (hc.addresses e inst addr g ho ha hg)
      exact ⟨_, getElem?_extend h.bindings hb, hc.bindings _ (List.mem_of_getElem? hb)⟩
  · rw [Function.cond?, h.ends] at hv
    exact (hs.conds b v hv).of_grown h.bindings

theorem Wires.touches_or_native (h : d.Wires src L F x op) :
    d.Native src op ∨ ∃ l, L l ∧ l.Touches x ∧ (∀ v ∈ op.operands, v.Sourced src d) ∧
      ∃ addr g, op.address? = some addr ∧ addr.global? = some g ∧ d.Calls g l.name ∧
        l.Uses x g op := by
  have hon : ∀ {v : Value}, v.Sourced src d → ∀ w ∈ [v], w.Sourced src d := by
    intro v hv w hw
    exact List.mem_singleton.mp hw ▸ hv
  cases h with
  | lane hv =>
    refine .inl ⟨fun w hw => ?_, fun addr g ha => by cases ha⟩
    rcases List.mem_cons.mp hw with rfl | hw
    · exact hv
    · exact hon .of_const w hw
  | element path _ hg =>
    refine .inl ⟨fun w hw => absurd hw List.not_mem_nil, fun addr g ha hgl => ?_⟩
    obtain rfl := Option.some.inj ha
    exact Option.some.inj hgl ▸ hg.mirrors
  | store ho hx hv =>
    exact .inr ⟨_, ho.layout, .inl hx, hon hv, _, _, rfl, rfl, ho.calls, .store _ hx ho.lt⟩
  | storeElement position ho hx =>
    exact .inr ⟨_, ho.layout, .inl hx, hon .of_inst, _, _, rfl, rfl, ho.calls,
      .storeElement _ position hx ho.lt⟩
  | load ho hx =>
    exact .inr ⟨_, ho.layout, .inr hx, fun w hw => absurd hw List.not_mem_nil, _, _, rfl, rfl, ho.calls,
      .load hx ho.lt⟩
  | loadElement ho hx hv =>
    exact .inr ⟨_, ho.layout, .inr hx, hon hv, _, _, rfl, rfl, ho.calls, .loadElement _ hx ho.lt⟩

/-- A name that no binding of the source program has, and of the records in a part only one. -/
structure Alone (src : Source) (layouts : List TransferLayout) (l : TransferLayout) (x : Scope) :
    Prop where
  source : ∀ decl ∈ src.program.globals, decl.name ≠ l.name
  others : ∀ l' ∈ layouts, l' ≠ l → l'.Touches x → l'.name ≠ l.name

section Alone

variable (halone : Alone src layouts l x)
include halone

theorem Alone.not_mirrors (hg : d.Calls g l.name) : ¬d.Mirrors src g := by
  rintro ⟨decl, hd, decl', hd', hn⟩
  obtain ⟨decl1, hd1, hn1⟩ := hg
  obtain rfl := Option.mem_unique hd1 hd
  exact halone.source decl' hd' (hn.trans hn1)

theorem Linked.binding_eq (h : d.Linked src layouts x) (hg : d.Calls g l.name) :
    d.program.globals[g]? = some (.plain l.name l.record) := by
  obtain ⟨decl, hd, hn⟩ := hg
  rcases h.bindings decl (List.mem_of_getElem? hd) with ⟨decl', hd', hn'⟩ | ⟨l', hl', hx, rfl⟩
  · exact absurd (hn'.trans hn) (halone.source decl' hd')
  · by_cases heq : l' = l
    · rwa [heq] at hd
    · exact absurd hn (halone.others l' hl' heq hx)

/-- The name of a record is no name of the source, so its instructions are those of the wiring. -/
theorem Linked.usesOnly (h : d.Linked src layouts x) (hg : d.Calls g l.name) :
    d.builder.finish.UsesOnly l x g := by
  have hno : ∀ {v : Value}, v.Sourced src d → v ≠ .global g :=
    fun hv heq => halone.not_mirrors hg (hv g heq)
  refine ⟨fun inst hi addr ha hgl => ?_, fun inst hi hm => ?_, fun b hb => ?_⟩
  · obtain ⟨e, he⟩ := Array.mem_iff_getElem?.mp hi
    have hf : ¬d.Native src inst.op := fun hn =>
      halone.not_mirrors hg (hn.addresses addr g ha hgl)
    obtain ⟨l', hl', hx, -, addr', g', ha', hg', hc, hu⟩ :=
      ((h.insts e inst he).resolve_left hf).touches_or_native.resolve_left hf
    obtain rfl := Option.mem_unique ha' ha
    obtain rfl := Option.mem_unique hg' hgl
    have hnam : l'.name = l.name := by
      obtain ⟨decl, hd, hnam⟩ := hg
      obtain ⟨decl', hd', hn'⟩ := hc
      obtain rfl := Option.mem_unique hd' hd
      exact hn'.symm.trans hnam
    have heq : l' = l := by
      by_contra hne
      exact halone.others l' hl' hne hx hnam
    exact heq ▸ hu
  · obtain ⟨e, he⟩ := Array.mem_iff_getElem?.mp hi
    rcases h.insts e inst he with hna | hw
    · exact hno (hna.operands _ hm) rfl
    · rcases hw.touches_or_native with hna | ⟨l', -, -, ho, -⟩
      · exact hno (hna.operands _ hm) rfl
      · exact hno (ho _ hm) rfl
  · have hb : d.builder.func.close.cond? b = some (.global g) := hb
    rw [Function.close_cond?] at hb
    exact hno (h.conds b _ hb) rfl

end Alone

end Draft

theorem Program.globalNamed?_eq_some_iff {p : Program} (h : (p.globals.map GlobalDecl.name).Nodup)
    {name : String} {g : GlobalId} : p.globalNamed? name = some g ↔
      ∃ decl, p.globals[g]? = some decl ∧ decl.name = name := by
  unfold Program.globalNamed?
  rw [List.findIdx?_eq_some_iff_getElem]
  constructor
  · rintro ⟨hlt, hn, -⟩
    exact ⟨_, List.getElem?_eq_getElem hlt, beq_iff_eq.mp hn⟩
  · rintro ⟨decl, hd, hn⟩
    obtain ⟨hlt, rfl⟩ := List.getElem?_eq_some_iff.mp hd
    refine ⟨hlt, beq_iff_eq.mpr hn, fun j hj hs => ?_⟩
    have hna : (p.globals.map GlobalDecl.name)[j]? = (p.globals.map GlobalDecl.name)[g]? := by
      rw [List.getElem?_map, List.getElem?_map, hd, List.getElem?_eq_getElem (hj.trans hlt)]
      exact congrArg some ((beq_iff_eq.mp hs).trans hn.symm)
    have hi := (List.getElem?_inj (by rw [List.length_map]; omega) h).mp hna
    omega

theorem Source.sat_emitTable_linked {src : Source} (tree : PostDominators) (table : ScopeTable)
    (types : TypePool) :
    Act.Sat Act.Any (src.emitTable tree table) (Emission.start src types table.scopes)
      fun layouts t => (∀ x, t.Meets x (·.Linked src layouts x)) ∧
        ∀ l ∈ layouts, ∀ x, l.Touches x → Emission.Holds l x t := by
  refine (sat_emitTable_edits tree table types).mono fun layouts t ⟨s, R, hco, hed, hh⟩ => ?_
  have hc := (sat_copyAll_copying tree _).of_run hco
  have hp := hc.posted (Emission.posted_start src types table.scopes)
  have ha := hc.accounted (Emission.posted_start src types table.scopes)
    (Emission.accounted_start ..)
  refine ⟨fun x d' hd' => ?_, hh⟩
  obtain ⟨d, hd, he⟩ := hed.back hd'
  exact he.linked (hp.closed _ d hd) (ha.sourced _ d hd)

variable {p : Program} {types : TypePool} {f : Function} {table : ScopeTable} {strategy : Strategy}

/-- A record whose name no binding of the source has, nor another record of its parts, has a binding
of its own in both of its parts: no other record and no binding of the source goes by it, and it is
used only to store the fields of the record or to load them. -/
theorem record_binding_apart {out : SplitOutput} {types' : TypePool}
    (h : split p types f table strategy = .ok (out, types')) {l : TransferLayout}
    (hl : l ∈ out.transfers) (hsource : ∀ decl ∈ p.globals, decl.name ≠ l.name)
    (hothers : ∀ l' ∈ out.transfers, l' ≠ l → (∃ x, l.Touches x ∧ l'.Touches x) → l'.name ≠ l.name)
    {x : Scope} (hx : l.Touches x) :
    ∃ part g, out.partitions[x.val]? = some part ∧ part.program.globalNamed? l.name = some g ∧
      part.program.globals[g]? = some (.plain l.name l.record) ∧
      (∀ g' decl, part.program.globals[g']? = some decl → decl.name = l.name → g' = g) ∧
      (∀ l' ∈ out.transfers, l' ≠ l → l'.Touches x →
        part.program.globalNamed? l'.name ≠ some g) ∧
      (∀ decl ∈ p.globals, part.program.globalNamed? decl.name ≠ some g) ∧
      ∀ fn ∈ part.program.functions, fn.UsesOnly l x g := by
  obtain ⟨tree, state, sinks, transfers, final, hs, rfl, rfl⟩ := exists_splits_of_split_eq h
  obtain ⟨hlinked, hholds⟩ := (Source.sat_emitTable_linked tree table types).of_run hs.emitted
  obtain ⟨d, g, hd, hg⟩ := hholds l hl x hx
  have hlinked := hlinked x d hd
  have halone : Draft.Alone ⟨p, f, state.table⟩ transfers l x :=
    ⟨hsource, fun l' hl' hne hx' => hothers l' hl' hne ⟨x, hx, hx'⟩⟩
  have hbinding := hlinked.binding_eq halone hg
  have hnamed : ∀ {name g'}, d.program.globalNamed? name = some g' ↔ d.Calls g' name :=
    Program.globalNamed?_eq_some_iff hlinked.distinct
  have hname : ∀ {name}, name ≠ l.name → d.program.globalNamed? name ≠ some g := by
    intro name hne heq
    obtain ⟨decl, hdecl, rfl⟩ := hnamed.mp heq
    obtain rfl := Option.some.inj (hdecl.symm.trans hbinding)
    exact hne rfl
  have hpart : final.partitions[x.val]? = some d.finish := by
    simp [Emission.partitions, hd]
  refine ⟨d.finish, g, hpart, hnamed.mpr hg, hbinding, fun g' decl hdecl heq => ?_,
    fun l' hl' hne hx' => hname (halone.others l' hl' hne hx'),
    fun decl hdecl => hname (hsource decl hdecl), fun fn hfn => ?_⟩
  · have hfirst := hnamed.mpr ⟨decl, hdecl, heq⟩
    exact Option.some.inj (hfirst.symm.trans (hnamed.mpr hg))
  · obtain rfl := Source.eq_finish_of_emitTable hs.emitted hd hfn
    exact hlinked.usesOnly halone hg

def relay : Function where
  name := "main"
  entry := 0
  blocks := #[⟨[0, 1, 2], some .ret⟩]
  insts := #[⟨.load (.member 0 []), .float, 0⟩, ⟨.store (.inst 0) (.member 1 []), .void, 0⟩,
    ⟨.store (.inst 0) (.member 2 []), .void, 0⟩]
  layout := [0]

def relayProgram : Program :=
  ⟨"relay", [.plain "in" .float, .plain "near" .float, .plain "far" .float], [], [relay]⟩

def relayTable (first second : String) : ScopeTable where
  scopes := ["early", "middle", "late"]
  roots := [⟨"in", .ofNat 0, .ofNat 1⟩]
  sinks := [⟨"near", .ofNat 1, .ofNat 1⟩, ⟨"far", .ofNat 2, .ofNat 1⟩]
  transfers := [⟨.ofNat 0, .ofNat 1, first, false⟩, ⟨.ofNat 0, .ofNat 2, second, false⟩]

theorem record_binding_apart_relay :
    ∃ out types' l, split relayProgram .empty relay (relayTable "first" "second") .plain
        = .ok (out, types') ∧ l ∈ out.transfers ∧ l.name = "second" ∧
      ∃ part g, out.partitions[(0 : Scope).val]? = some part ∧
        part.program.globalNamed? "second" = some g ∧
        part.program.globals[g]? = some (.plain "second" l.record) ∧
        ∀ fn ∈ part.program.functions, fn.UsesOnly l 0 g := by
  have hcheck : (split relayProgram .empty relay (relayTable "first" "second") .plain).toOption.any
      (fun answer => answer.1.transfers.any fun l => l.name == "second" && l.src == 0 &&
        (relayProgram.globals.all fun decl => decl.name != l.name) &&
        answer.1.transfers.all fun l' => l' == l || l'.name != l.name) = true := by decide +kernel
  obtain ⟨answer, hsplit, hcheck⟩ := exists_ok_of_any hcheck
  obtain ⟨l, hl, hcheck⟩ := List.any_eq_true.mp hcheck
  simp only [Bool.and_eq_true, beq_iff_eq, List.all_eq_true, bne_iff_ne, Bool.or_eq_true] at hcheck
  obtain ⟨⟨⟨hname, hsrc⟩, hsource⟩, hothers⟩ := hcheck
  have hapart := record_binding_apart hsplit hl hsource
    (fun l' hl' hne _ => (hothers l' hl').resolve_left hne) (.inl hsrc.symm)
  obtain ⟨part, g, hpart, hnamed, hbinding, -, -, -, huses⟩ := hapart
  rw [hname] at hnamed hbinding
  exact ⟨answer.1, answer.2, l, hsplit, hl, hname, part, g, hpart, hnamed, hbinding, huses⟩

/-- A record that is named like an output finds the binding of the output, and two records of one name
find one binding. -/
theorem record_binding_shared_relay :
    ((relayTable "near" "second").validate = .ok () ∧
      ∃ out types', split relayProgram .empty relay (relayTable "near" "second") .plain
          = .ok (out, types') ∧
        ∃ l ∈ out.transfers, ∃ part, out.partitions[l.dst.val]? = some part ∧
          ∃ decl ∈ part.program.globals, decl.name = l.name ∧ decl.ty ≠ l.record) ∧
    ((relayTable "link" "link").validate = .ok () ∧
      ∃ out types', split relayProgram .empty relay (relayTable "link" "link") .plain
          = .ok (out, types') ∧
        ∃ l ∈ out.transfers, ∃ l' ∈ out.transfers, l'.dst ≠ l.dst ∧ l'.src = l.src ∧
          ∃ part, out.partitions[l.src.val]? = some part ∧
            (part.program.globalNamed? l.name).isSome ∧
            part.program.globalNamed? l'.name = part.program.globalNamed? l.name) := by
  refine ⟨⟨by decide, ?_⟩, by decide, ?_⟩
  · have hclash : (split relayProgram .empty relay (relayTable "near" "second") .plain).toOption.any
        (fun answer => answer.1.transfers.any fun l => (answer.1.partitions[l.dst.val]?).any fun part =>
          part.program.globals.any fun decl => decl.name == l.name && decl.ty != l.record) = true := by
      decide +kernel
    obtain ⟨answer, hsplit, hclash⟩ := exists_ok_of_any hclash
    refine ⟨answer.1, answer.2, hsplit, ?_⟩
    simpa [Option.any_eq_true] using hclash
  · have hclash : (split relayProgram .empty relay (relayTable "link" "link") .plain).toOption.any
        (fun answer => answer.1.transfers.any fun l => answer.1.transfers.any fun l' =>
          l'.dst != l.dst && (l'.src == l.src && (answer.1.partitions[l.src.val]?).any fun part =>
            (part.program.globalNamed? l.name).isSome &&
              part.program.globalNamed? l'.name == part.program.globalNamed? l.name)) = true := by
      decide +kernel
    obtain ⟨answer, hsplit, hclash⟩ := exists_ok_of_any hclash
    refine ⟨answer.1, answer.2, hsplit, ?_⟩
    simpa [Option.any_eq_true] using hclash

end Stagewise
