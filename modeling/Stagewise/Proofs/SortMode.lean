import Stagewise.Proofs.Classification.Ordering
import Stagewise.Proofs.Classification.Reachability

namespace Stagewise

open Relation

namespace Classifier

variable {c : Classifier} {s : State} {name : String} {scope : Scope} {flags : UsageFlags}
  {v : Value}

def RestsOn (c : Classifier) (v : Value) (m : Node) : Prop :=
  ∃ n, v.node? = some n ∧ ReflTransGen c.DependsOn n m

/-- What the writes of a sink rest on: the values and the runtime indices that they read, and the
conditions of the branches that they keep. -/
inductive Inputs (c : Classifier) (name : String) : Value → Prop
  | read {site : SinkSite} {v : Value} : site ∈ c.sinkSites name → v ∈ site.reads → Inputs c name v
  | guard {site : SinkSite} {q : BlockId} {v : Value} : site ∈ c.sinkSites name →
      site.conditional = true → TransGen (fun b q => q ∈ c.parents b) site.block q →
      c.func.cond? q = some v → Inputs c name v

theorem Inputs.reaches {R : List Request} {n : Node} (h : c.Inputs name v)
    (hr : .sink name scope flags ∈ R) (hre : c.Unread R) (hn : v.node? = some n) :
    c.Reaches R n ∧ c.Free R n := by
  cases h with
  | @read site _ hs hv =>
    exact ⟨.asked hr (asks_of_mem_reads hs hv hn),
      hre.free_of_mem_reads hs hv hn⟩
  | @guard site q _ hs hco hpa hv =>
    have hf : ∀ b, c.Free R (.block b) := fun b i x heq => by cases heq
    have hh : c.Reaches R (.block site.block) := by
      refine .asked hr ⟨site, hs, .inr ⟨⟨.block site.block, flags, .single scope⟩, ?_, rfl⟩⟩
      exact List.mem_append_right _ (by rw [if_pos hco]; exact List.mem_singleton.mpr rfl)
    have hq : c.Reaches R (.block q) := by
      clear hv
      induction hpa with
      | single hp => exact .lead hh (hf _) (parent_dependsOn hp)
      | tail _ hp ih => exact .lead ih (hf _) (parent_dependsOn hp)
    have hl : n ∈ c.leads (.block q) := cond_dependsOn_block hv hn
    exact ⟨.lead hq (hf q) hl, hre.free_of_mem_leads hl⟩

theorem exists_site_of_store {i : InstId} {inst : Inst} {addr : Address} {g : GlobalId}
    (hi : c.func.insts[i]? = some inst) (hop : inst.op = .store v addr)
    (hg : c.program.globalNamed? name = some g) (ha : addr.global? = some g) :
    ∃ site ∈ c.sinkSites name, site.value = v := by
  obtain ⟨_, ty, block⟩ := inst
  subst hop
  refine ⟨⟨i, block, v, v :: addr.indexValues, !c.postDominators.postDominates block c.func.entry⟩,
    List.mem_filterMap.mpr ⟨i, ?_, ?_⟩, rfl⟩
  · exact List.mem_range.mpr (Array.getElem?_eq_some_iff.mp hi).1
  · simp [sinkSite?, hi, hg, ha]

/-- Classifying a sink answers with the value of its last write, and with the scope of that value
unless the value is itself a write. -/
theorem sat_classifySink_write : Act.Sat Act.Any (c.classifySink name scope flags) s fun write s' =>
    c.Responds (.sink name scope flags) ⟨s, []⟩ ⟨s', []⟩ ∧
      write.map SinkWrite.value = (c.sinkSites name).getLast?.map SinkSite.value ∧
      ∀ w ∈ write, (∃ i, w.value = .inst i ∧ s'.table.isPinned i = true) ∨
        w.scope = s'.table.valueScope w.value := by
  refine sat_classifySink_responds.and ?_
  unfold classifySink
  simp only
  cases hl : (c.sinkSites name).getLast? with
  | none => exact ⟨rfl, by simp⟩
  | some last =>
    simp only [Act.sat_bind, Act.sat_modify, Act.sat_get]
    refine Act.sat_any_iff.mpr fun _ s' _ => ?_
    cases hv : last.value with
    | inst i =>
      refine ⟨by simp [hv], fun w hw => ?_⟩
      obtain rfl := Option.mem_some.mp hw
      by_cases hp : s'.table.isPinned i = true
      · exact .inl ⟨i, rfl, hp⟩
      · exact .inr (if_neg hp)
    | global _ | const _ => simp [hv]

end Classifier

namespace Shader

variable {o : Options} {c : Classifier} {W : InstId → Scope → Prop} {t : Classification} {n m : Node}
  {i : InstId}

/-- The function that is classified: that of the shader, or the one with flipped coordinates. -/
def prepared (o : Options) (p : Program) (types : TypePool) (f : Function) : Except Fault Function :=
  if o.flipY then flipY p types f else pure f

theorem split_eq (o : Options) (p : Program) (types : TypePool) (f : Function) :
    split o p types f = prepared o p types f >>= fun f =>
      splitWith p types f (table o) (strategy o.avoidPixel) classifySort := by
  unfold split prepared
  cases o.flipY <;> rfl

/-- Preparing a function leaves its stores as they are. -/
theorem store_of_prepared {p : Program} {types : TypePool} {f f' : Function}
    (h : prepared o p types f = .ok f') {inst : Inst} {v : Value} {addr : Address}
    (hin : f.insts[i]? = some inst) (hop : inst.op = .store v addr) : f'.insts[i]? = some inst := by
  have hs : ∀ {target j out out'}, flipCoordinate p types f target out j = .ok out' →
      out.insts[i]? = some inst → out'.insts[i]? = some inst := by
    intro target j out out' h ho
    unfold flipCoordinate at h
    split at h
    · next args ha =>
      obtain ⟨coord, -, h⟩ := bind_eq_ok h
      obtain ⟨ty, -, h⟩ := bind_eq_ok h
      cases h
      have hne : i ≠ j := by
        rintro rfl
        simp [hin, sampleArgs?, hop] at ha
      have hi : ∀ {out : Function} {ty op}, out.insts[i]? = some inst →
          (out.insertBefore j ty op).2.insts[i]? = some inst := fun ho =>
        (Function.insertAt_getElem?_insts _ _ _ _ (Array.getElem?_eq_some_iff.mp ho).1).trans ho
      rw [Function.setOp_getElem?_insts, if_neg hne.symm]
      exact hi (hi (hi ho))
    · cases h
      exact ho
  have hf : ∀ {target} (is : List InstId) {out}, is.foldlM (flipCoordinate p types f target) out
      = .ok f' → out.insts[i]? = some inst → f'.insts[i]? = some inst := by
    intro target is
    induction is with
    | nil => exact fun h ho => Except.ok.inj h ▸ ho
    | cons j is ih =>
      intro out h ho
      obtain ⟨next, hn, h⟩ := bind_eq_ok h
      exact ih h (hs hn ho)
  unfold prepared flipY at h
  split at h
  · split at h
    · exact hf _ h hin
    · exact Except.ok.inj h ▸ hin
  · exact Except.ok.inj h ▸ hin

def demands (o : Options) : List Request :=
  .sink "sort" material usedByMaterial :: (table o).demands

/-- A node at home after the material stage: a binding that is declared there, or a sample where pixel
work is avoided. -/
inductive Late (o : Options) (c : Classifier) : Node → Prop
  | root {e : Endpoint} {g : GlobalId} : e ∈ (table o).roots →
      c.program.globalNamed? e.name = some g → material < e.scope → Late o c (.global g)
  | sample {i : InstId} {inst : Inst} {callee : FuncId} {args : List Value} {d : FunctionDecl} :
      o.avoidPixel = true → c.func.insts[i]? = some inst → inst.op = .call (.direct callee) args →
      c.program.decls[callee]? = some d → d.name.startsWith sample = true → Late o c (.inst i)

/-- The last write of the sort key speaks for all: it is a store, if it stores a constant zero all
writes do, and what the writes rest on is late only where its value rests on the same. -/
structure Speaks (o : Options) (c : Classifier) (last : SinkSite) : Prop where
  store : last.value ≠ .inst last.inst
  zero : ∀ k, last.value = .const k → k.isZero = true →
    ∀ site ∈ c.sinkSites "sort", ∃ k', site.value = .const k' ∧ k'.isZero = true
  late : ∀ v m, c.Inputs "sort" v → c.RestsOn v m → Late o c m → c.RestsOn last.value m

/-- Where the placements of a shader come from: those after the material stage from what is late and
from writes. -/
def Brings (o : Options) (c : Classifier) (W : InstId → Scope → Prop) (n : Node) (x : Scope) : Prop :=
  x ≤ material ∨ Late o c n ∨ ∃ i y, n = .inst i ∧ W i y

theorem nodup_roots (o : Options) : ((table o).roots.map Endpoint.name).Nodup := by
  have hn : (table o).roots.map Endpoint.name = ["viewMatrix", "projectionMatrix",
    "viewProjectionMatrix", "viewport", "deformer", "material", "matrix", "objectId", "vertex", "s_o",
    "frontFacing", "pointCoord", "fragCoord"] := rfl
  rw [hn]
  decide

theorem ascends_strategy (avoidPixel : Bool) : (strategy avoidPixel).Ascends := by
  intro info computed
  show _ ≤ Scope.rank (placeValue avoidPixel info computed)
  unfold placeValue
  simp only
  split
  · next h =>
    obtain ⟨-, hs⟩ := (Bool.and_eq_true _ _).mp h
    rw [eq_of_beq hs]
    decide
  · exact le_refl _

theorem floor_eq {avoidPixel : Bool} {callee : FuncId} {args : List Value} {flags : UsageFlags}
    {rule : CallRule} (hc : c.strategy = strategy avoidPixel)
    (h : c.callRule? i callee args flags = some rule) :
    ∃ d, c.program.decls[callee]? = some d ∧
      rule.floor = some (if avoidPixel && d.name.startsWith sample then pixel else material) := by
  obtain ⟨d, hd, rfl⟩ := Option.map_eq_some_iff.mp h
  refine ⟨d, hd, ?_⟩
  rw [hc]
  show (classifyCall avoidPixel _ flags).floor = _
  unfold classifyCall
  cases avoidPixel with
  | true => simp
  | false =>
    simp only [Bool.false_eq_true, if_false, Bool.false_and]
    split <;> rfl

theorem placesBy_strategy (hc : c.strategy = strategy o.avoidPixel) :
    c.PlacesBy (Brings o c W) W := by
  refine ⟨hc ▸ lively_strategy _, hc ▸ ascends_strategy _, fun info computed x hx => ?_,
    fun i inst callee args flags rule x hi hop hr hf => .inl ?_⟩
  · rw [hc] at hx
    replace hx : placeValue o.avoidPixel info computed = some x := hx
    unfold placeValue at hx
    simp only at hx
    split at hx
    · -- what was to be made for vertices is late, or written
      next h =>
      obtain rfl := Option.some.inj hx
      refine ⟨vertex, eq_of_beq ((Bool.and_eq_true _ _).mp h).2, fun m hm => .inl (.inr ?_)⟩
      rcases hm with (hle | hm) | ⟨i, rfl, hW⟩
      · exact absurd hle (by decide)
      · exact hm
      · exact .inr ⟨i, _, rfl, hW⟩
    · exact ⟨x, hx, fun _ => id⟩
  · obtain ⟨d, hd, hr⟩ := floor_eq hc hr
    obtain rfl := Option.mem_unique hr hf
    split
    · next h =>
      obtain ⟨ha, hn⟩ := (Bool.and_eq_true _ _).mp h
      exact .inr (.inl (.sample ha hi hop hd hn))
    · exact .inl (le_refl _)

section Placements

variable (hc : c.strategy = strategy o.avoidPixel)
  (h : c.Charted (Brings o c W) (Request.rootScope c.program (table o).declarations) W t)
  (hclear : c.Clear W n) (hused : (t.info n).isUsed = true)

include hc h hclear hused

theorem late_of_dependsOn (hp : ReflTransGen c.DependsOn n m) (hm : Late o c m) :
    Scope.rank (some material) < Scope.rank (t.info n).scope := by
  obtain ⟨hu', hle⟩ := h.depends hclear hused hp
  refine lt_of_lt_of_le ?_ hle
  cases hm with
  | @root e g he hg hl =>
    have hs := (h.roots g).trans (ScopeTable.rootScope_declarations (nodup_roots o) he hg)
    rw [show (t.info (.global g)).scope = _ from hs]
    exact Nat.succ_lt_succ hl
  | @sample i inst callee args d ha hi hop hd hn =>
    obtain ⟨rule, hr, hf⟩ := h.flowing.floor_le h.settled hi hop hu'
      (h.not_fixes (hclear.depends hp))
    obtain ⟨d', hd', hpi⟩ := floor_eq hc hr
    obtain rfl := Option.mem_unique hd hd'
    rw [hpi, ha, hn] at hf
    exact lt_of_lt_of_le (by decide) hf

theorem isSome_of_brings {x : Scope} (hp : ReflTransGen c.DependsOn n m)
    (hm : c.Brings (Request.rootScope c.program (table o).declarations) m x) :
    (t.info n).scope.isSome = true := by
  have hr : ∀ {y : Scope} {s s' : Option Scope}, s = some y → Scope.rank s ≤ Scope.rank s' →
      s'.isSome = true := by
    rintro y _ (_ | _) rfl hle
    · simp [Scope.rank] at hle
    · rfl
  obtain ⟨hu', hle⟩ := h.depends hclear hused hp
  cases hm with
  | @root g x hro => exact hr ((h.roots g).trans hro) hle
  | @call i inst callee args hi hop =>
    obtain ⟨rule, hru, hf⟩ := h.flowing.floor_le h.settled hi hop hu'
      (h.not_fixes (hclear.depends hp))
    obtain ⟨d, -, heq⟩ := floor_eq hc hru
    exact hr heq (hf.trans hle)

end Placements

theorem sortModeOf_spec (write : Option SinkWrite) : sortModeOf write ≠ .material ∧
    (sortModeOf write = .never → ∀ w ∈ write, ∃ k, w.value = .const k ∧ k.isZero = true) := by
  unfold sortModeOf
  split
  · simp
  · next k _ =>
    split
    · next hz => simpa using hz
    · simp
  · simp

/-- How a mode is read off the last write of the sort key and off the classification of all. -/
structure ReadOff (c : Classifier) (mode : SortMode) (s s' : Classifier.State) : Prop where
  material : mode = .material → ∃ last, (c.sinkSites "sort").getLast? = some last ∧
    c.Responds (.sink "sort" material usedByMaterial) ⟨s, []⟩ ⟨s', []⟩ ∧
    ((∃ i, last.value = .inst i ∧ s'.table.isPinned i = true) ∨
      s'.table.valueScope last.value = some material)
  never : mode = .never → ∀ last, (c.sinkSites "sort").getLast? = some last →
    ∃ k, last.value = .const k ∧ k.isZero = true

theorem sat_classifySort {s : Classifier.State} :
    Act.Sat Act.Any (classifySort c) s fun mode s' => ReadOff c mode s s' := by
  unfold classifySort
  simp only [Act.sat_bind, Classifier.snapshot, Act.sat_get, Act.sat_pure]
  refine Classifier.sat_classifySink_write.mono fun write s' hwr => ?_
  obtain ⟨hr, hva, hs⟩ := hwr
  split
  · next ha =>
    obtain ⟨w, rfl, hw⟩ := (Option.any_eq_true _ _).mp ha
    obtain ⟨last, hl, hv⟩ := Option.map_eq_some_iff.mp hva.symm
    refine ⟨fun _ => ⟨last, hl, hr, ?_⟩, by simp⟩
    rw [hv]
    exact (hs w rfl).imp_right fun h => h.symm.trans (eq_of_beq hw)
  · simp only [Act.sat_bind, Classifier.restore, Act.sat_modify, Act.sat_pure]
    obtain ⟨hma, hn⟩ := sortModeOf_spec write
    refine ⟨fun hm => absurd hm hma, fun hm last hl => ?_⟩
    rw [hl] at hva
    obtain ⟨w, rfl, hw⟩ := Option.map_eq_some_iff.mp hva
    exact hw ▸ hn hm w rfl

theorem sat_classifyTable {s : Classifier.State} :
    Act.Sat Act.Any (c.classifyTable (table o) (classifySort c)) s fun answer s₂ => ∃ s₀ s₁,
      c.Responses (table o).declarations ⟨s, []⟩ ⟨s₀, []⟩ ∧ ReadOff c answer.1 s₀ s₁ ∧
      c.Responses (table o).demands ⟨s₁, []⟩ ⟨s₂, []⟩ := by
  unfold Classifier.classifyTable
  simp only [Act.sat_bind, Act.sat_pure]
  exact (Classifier.sat_roots_responds _).mono fun _ s₀ hr => sat_classifySort.mono
    fun mode s₁ hm => (Classifier.sat_sinks_responds _).mono fun _ s₂ hs =>
      ⟨s₀, s₁, hr, hm, hs⟩

section Runs

variable {s₀ s₁ s₂ : Classifier.State} {last : SinkSite}

theorem not_late_of_material (hc : c.strategy = strategy o.avoidPixel) (hr : c.Unread (demands o))
    (h : c.Charted (Brings o c (c.Writes (demands o)))
      (Request.rootScope c.program (table o).declarations) (c.Writes (demands o)) s₁.table)
    (ha : ∀ n, c.Asks (.sink "sort" material usedByMaterial) n → (s₁.table.info n).isUsed = true)
    (hl : last ∈ c.sinkSites "sort") (hst : last.value ≠ .inst last.inst)
    (hs : (∃ i, last.value = .inst i ∧ s₁.table.isPinned i = true) ∨
      s₁.table.valueScope last.value = some material) (hm : c.RestsOn last.value m) :
    ¬Late o c m := by
  intro hla
  obtain ⟨n, hn, hp⟩ := hm
  have hv := (Classifier.value_of_mem_sinkSites hl).resolve_right hst
  have hf := hr.free_of_mem_reads hl hv hn
  have hused := ha n (Classifier.asks_of_mem_reads hl hv hn)
  rcases hs with ⟨i, heq, hpi⟩ | hs
  · obtain ⟨x, -, hW⟩ := h.pinned i hpi
    rw [heq] at hn
    exact hf i x (Option.some.inj hn).symm hW
  · have hlt := late_of_dependsOn hc h (hr.clear hf) hused hp hla
    rw [← Classification.valueScope_of_node hn hused, hs] at hlt
    exact lt_irrefl _ hlt

/-- No later sink takes an input of the sort key out of the scope of the material. -/
theorem valueScope_of_material (hc : c.strategy = strategy o.avoidPixel)
    (hre : c.Unread (demands o))
    (hro : c.Responses (table o).declarations c.openSession ⟨s₀, []⟩)
    (hso : c.Responds (.sink "sort" material usedByMaterial) ⟨s₀, []⟩ ⟨s₁, []⟩)
    (hsi : c.Responses (table o).demands ⟨s₁, []⟩ ⟨s₂, []⟩)
    (hla : last ∈ c.sinkSites "sort") (hs : Speaks o c last)
    (hsc : (∃ i, last.value = .inst i ∧ s₁.table.isPinned i = true) ∨
      s₁.table.valueScope last.value = some material) {v : Value} (hv : c.Inputs "sort" v) :
    (∀ x, s₂.table.valueScope v = some x → x = material) ∧
      ∀ m x, c.RestsOn v m → c.Brings (Request.rootScope c.program (table o).declarations) m x →
        s₂.table.valueScope v = some material := by
  have hB : ∀ g x, Request.rootScope c.program (table o).declarations g = some x →
      Brings o c (c.Writes (demands o)) (.global g) x := by
    intro g x hx
    obtain ⟨e, he, hg, rfl⟩ := ScopeTable.exists_root_of_rootScope hx
    exact (le_or_gt e.scope material).imp_right fun hl => .inl (.root he hg hl)
  have hse : ∀ r ∈ demands o, r.isSeed = true := by
    have hal : (demands o).all Request.isSeed = true := rfl
    simpa using hal
  have hpl := placesBy_strategy (W := c.Writes (demands o)) hc
  have hmo : ∀ {requests}, requests ⊆ demands o → ∀ i x, c.Writes requests i x →
      c.Writes (demands o) i x :=
    fun hsu i x ⟨name, flags, hme, hsit⟩ => ⟨name, flags, hsu hme, hsit⟩
  obtain ⟨hc1, hu1⟩ := hso.charted hpl (hse _ List.mem_cons_self)
    (hmo (by simp [demands])) (Classifier.charted_of_declares hro (table o).isRoot_declarations hB)
  obtain ⟨hc2, hu2⟩ := hsi.charted hpl (fun r hr => hse r (List.mem_cons_of_mem _ hr))
    (hmo (List.subset_cons_self _ _)) hc1
  have hno := fun m => not_late_of_material (m := m) hc hre hc1 (fun n hn => hu1 n (.inr hn))
    hla hs.store hsc
  have ha : ∀ n, (∃ r ∈ demands o, c.Asks r n) → (s₂.table.info n).isUsed = true := by
    rintro n ⟨r, hr, hn⟩
    rcases List.mem_cons.mp hr with rfl | hr
    · exact hu2 n (.inl (hu1 n (.inr hn)))
    · exact hu2 n (.inr ⟨r, hr, hn⟩)
  have hu : ∀ x, s₂.table.valueScope v = some x → x = material := by
    intro x hx
    obtain ⟨n, hn, hp⟩ := Classification.valueScope_eq_some hx
    have hclear := hre.clear (hv.reaches List.mem_cons_self hre hn).2
    obtain ⟨m, hpa, (hle | hl | ⟨i, y, rfl, hW⟩) | ⟨i, rfl, hW⟩⟩ := hc2.founded n x hp
    · exact le_antisymm hle (Nat.zero_le _)
    · exact absurd hl (hno m (hs.late v m hv ⟨n, hn, hpa⟩ hl))
    · exact absurd hW (hclear _ hpa i y rfl)
    · exact absurd hW (hclear _ hpa i x rfl)
  refine ⟨hu, fun m x hm hb => ?_⟩
  obtain ⟨n, hn, hpa⟩ := hm
  obtain ⟨hrea, hf⟩ := hv.reaches List.mem_cons_self hre hn
  have hused := hc2.isUsed_of_reaches ha hrea
  have hsom := isSome_of_brings hc hc2 (hre.clear hf) hused hpa hb
  obtain ⟨y, hy⟩ := Option.isSome_iff_exists.mp hsom
  have hp := (Classification.valueScope_of_node hn hused).trans hy
  rw [hp, hu y hp]

end Runs

/-- Where no write of a sink is read and the last write of the sort key speaks for all, shapes are never
sorted only if all stores to it are of a constant zero, and the material stage decides only if all that
the writes rest on is in that stage: nothing of it is placed later, and what is computed from a declared
binding or by a call of a declared function is placed. -/
theorem sort_mode_accounts {p : Program} {types types' : TypePool} {f f' : Function} {out : SplitOutput}
    {mode : SortMode} {tree : PostDominators}
    (hsplit : split o p types f = .ok (out, mode, types')) (hf : prepared o p types f = .ok f')
    (htree : PostDominators.ofFunction f' = .ok tree)
    (hc : Classifier.ofFunction p f' (strategy o.avoidPixel) tree = .ok c)
    (hread : c.Unread (demands o))
    (hspeaks : ∀ last, (c.sinkSites "sort").getLast? = some last → Speaks o c last) :
    (mode = .never → ∀ (i : InstId) (inst : Inst) v addr g, f.insts[i]? = some inst →
        inst.op = .store v addr → p.globalNamed? "sort" = some g → addr.global? = some g →
        ∃ k, v = .const k ∧ k.isZero = true) ∧
      (mode = .material → ∀ v, c.Inputs "sort" v →
        (∀ x, out.classification.valueScope v = some x → x = material) ∧
        ∀ m x, c.RestsOn v m → c.Brings (Request.rootScope p (table o).declarations) m x →
          out.classification.valueScope v = some material) := by
  obtain rfl := Classifier.eq_classifierOf hc
  rw [split_eq] at hsplit
  obtain ⟨f'', hf'', hsplit⟩ := bind_eq_ok hsplit
  obtain rfl : f'' = f' := Except.ok.inj (hf''.symm.trans hf)
  obtain ⟨tree', sinks, state, htree', hrun, hclassification⟩ :=
    exists_classified_of_splitWith_eq hsplit
  obtain rfl : tree' = tree := Except.ok.inj (htree'.symm.trans htree)
  obtain ⟨s₀, s₁, hroots, hmode, hsinks⟩ := sat_classifyTable.of_run hrun
  rw [hclassification]
  refine ⟨fun hnever i inst v addr g hinst hop hg haddr => ?_, fun hmaterial v hv => ?_⟩
  · obtain ⟨site, hsite, rfl⟩ := Classifier.exists_site_of_store
      (c := classifierOf p f'' (strategy o.avoidPixel) tree') (store_of_prepared hf hinst hop) hop hg
      haddr
    cases hlast : ((classifierOf p f'' (strategy o.avoidPixel) tree').sinkSites "sort").getLast? with
    | none =>
      rw [List.getLast?_eq_none_iff.mp hlast] at hsite
      cases hsite
    | some last =>
      obtain ⟨k, hk, hzero⟩ := hmode.never hnever last hlast
      exact (hspeaks last hlast).zero k hk hzero site hsite
  · obtain ⟨last, hlast, hsort, hscope⟩ := hmode.material hmaterial
    exact valueScope_of_material rfl hread hroots hsort hsinks (List.mem_of_getLast? hlast)
      (hspeaks last hlast) hscope hv

/-- A key that is written in both arms of a branch: a loaded value in one, a given value in the
other. -/
def keyed (second : Value) : Function where
  name := "main"
  entry := 0
  blocks := #[⟨[0, 1], some (.branch (.inst 0) 1 2)⟩, ⟨[2], some (.jump 3)⟩, ⟨[3], some (.jump 3)⟩,
    ⟨[], some .ret⟩]
  insts := #[⟨.load (.member 0 []), .bool, 0⟩, ⟨.load (.member 1 []), .float, 0⟩,
    ⟨.store (.inst 1) (.member 2 []), .void, 1⟩, ⟨.store second (.member 2 []), .void, 2⟩]
  layout := [0, 1, 2, 3]

def keyedProgram (guard value : String) (second : Value) : Program :=
  ⟨"key", [.plain guard .bool, .plain value .float, .plain "sort" .float], [], [keyed second]⟩

def keyedTree : PostDominators := ⟨#[some 3, some 3, some 3, some 4, some 4], #[4, 2, 3, 1, 0]⟩

def keyedClassifier : Classifier :=
  classifierOf (keyedProgram "material" "viewport" (.inst 1)) (keyed (.inst 1)) (strategy false)
    keyedTree

/-- The branch and the key come from the material stage in both arms. -/
theorem sort_mode_accounts_keyed : ∃ out types',
    split ⟨false, false, false⟩ (keyedProgram "material" "viewport" (.inst 1)) .empty
      (keyed (.inst 1)) = .ok (out, .material, types') ∧
    keyedClassifier.Inputs "sort" (.inst 0) ∧ keyedClassifier.Inputs "sort" (.inst 1) ∧
    keyedClassifier.Unread (demands ⟨false, false, false⟩) ∧
    (∀ last, (keyedClassifier.sinkSites "sort").getLast? = some last →
      Speaks ⟨false, false, false⟩ keyedClassifier last) ∧
    out.classification.valueScope (.inst 0) = some material ∧
    out.classification.valueScope (.inst 1) = some material := by
  have hsites : keyedClassifier.sinkSites "sort" =
      [⟨2, 1, .inst 1, [.inst 1], true⟩, ⟨3, 2, .inst 1, [.inst 1], true⟩] := by decide +kernel
  have hread : keyedClassifier.Unread (demands ⟨false, false, false⟩) := by
    have hall : ∀ i ∈ keyedClassifier.writesOf (demands ⟨false, false, false⟩),
        i ∉ keyedClassifier.func.readInsts := by decide +kernel
    exact fun i x hW => hall i hW.mem_writesOf
  -- the program has no binding of a later stage
  have hnever : ∀ m, ¬Late ⟨false, false, false⟩ keyedClassifier m := by
    intro m hlate
    cases hlate with
    | @root e g he hg hlate =>
      have hnone : ∀ e ∈ (table ⟨false, false, false⟩).roots,
          (keyedClassifier.program.globalNamed? e.name).isSome = true → ¬material < e.scope := by
        decide +kernel
      exact hnone e he (by rw [hg]; rfl) hlate
    | sample havoid => cases havoid
  have hspeaks : ∀ last, (keyedClassifier.sinkSites "sort").getLast? = some last →
      Speaks ⟨false, false, false⟩ keyedClassifier last := by
    intro last hlast
    rw [hsites] at hlast
    obtain rfl := Option.some.inj hlast
    exact ⟨by decide, fun k hk => by simp at hk, fun v m _ _ hlate => absurd hlate (hnever m)⟩
  have hguard : keyedClassifier.Inputs "sort" (.inst 0) := by
    refine .guard (hsites ▸ List.mem_cons_self) rfl (.single (?_ : 0 ∈ _)) rfl
    decide +kernel
  have hkey : keyedClassifier.Inputs "sort" (.inst 1) :=
    .read (hsites ▸ List.mem_cons_self) (List.mem_singleton.mpr rfl)
  have hmode : (split ⟨false, false, false⟩ (keyedProgram "material" "viewport" (.inst 1)) .empty
      (keyed (.inst 1))).toOption.any (fun answer => answer.2.1 == .material) = true := by
    decide +kernel
  obtain ⟨⟨out, mode, types'⟩, hsplit, hmode⟩ := exists_ok_of_any hmode
  obtain rfl : mode = .material := eq_of_beq hmode
  obtain ⟨-, hmaterial⟩ := sort_mode_accounts (c := keyedClassifier) hsplit rfl
    (by decide +kernel : _ = Except.ok keyedTree) (Classifier.ofFunction_eq (by decide)) hread hspeaks
  refine ⟨out, types', hsplit, hguard, hkey, hread, hspeaks, ?_, ?_⟩
  · exact (hmaterial rfl _ hguard).2 (.global 0) material
      ⟨.inst 0, rfl, .single (List.mem_singleton.mpr rfl)⟩ (.root (by decide +kernel))
  · exact (hmaterial rfl _ hkey).2 (.global 1) material
      ⟨.inst 1, rfl, .single (List.mem_singleton.mpr rfl)⟩ (.root (by decide +kernel))

/-- A zero that is written last hides a key of the pixel stage, and a key of the material stage the
branch of the pixel stage that it depends on, which is undefined where the material stage tests it. -/
theorem sort_mode_misses_keyed :
    (∃ out types', split ⟨false, false, false⟩
        (keyedProgram "frontFacing" "fragCoord" (.const (.float .float 0))) .empty
        (keyed (.const (.float .float 0))) = .ok (out, .never, types') ∧
      (keyed (.const (.float .float 0))).insts[2]? =
        some ⟨.store (.inst 1) (.member 2 []), .void, 1⟩) ∧
    ∃ out types', split ⟨false, false, false⟩ (keyedProgram "frontFacing" "material" (.inst 1)) .empty
        (keyed (.inst 1)) = .ok (out, .material, types') ∧
      (keyed (.inst 1)).cond? 0 = some (.inst 0) ∧
      out.classification.valueScope (.inst 0) = some pixel ∧
      .backwardTransfer 0 pixel material ∈ out.problems := by
  constructor
  · have hmode : (split ⟨false, false, false⟩
        (keyedProgram "frontFacing" "fragCoord" (.const (.float .float 0))) .empty
        (keyed (.const (.float .float 0)))).toOption.any (fun answer => answer.2.1 == .never) = true := by
      decide +kernel
    obtain ⟨⟨out, mode, types'⟩, hsplit, hmode⟩ := exists_ok_of_any hmode
    obtain rfl := eq_of_beq hmode
    exact ⟨out, types', hsplit, rfl⟩
  · have hmode : (split ⟨false, false, false⟩ (keyedProgram "frontFacing" "material" (.inst 1)) .empty
        (keyed (.inst 1))).toOption.any (fun answer => answer.2.1 == .material &&
          (answer.1.classification.valueScope (.inst 0) == some pixel &&
            decide (.backwardTransfer 0 pixel material ∈ answer.1.problems))) = true := by
      decide +kernel
    obtain ⟨⟨out, mode, types'⟩, hsplit, hmode⟩ := exists_ok_of_any hmode
    simp only [Bool.and_eq_true, beq_iff_eq, decide_eq_true_eq] at hmode
    obtain ⟨rfl, hscope, hproblem⟩ := hmode
    exact ⟨out, types', hsplit, rfl, hscope, hproblem⟩

end Shader

end Stagewise
