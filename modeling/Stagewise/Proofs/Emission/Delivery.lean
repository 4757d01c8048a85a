import Stagewise.Proofs.Emission.Elements

namespace Stagewise

namespace Ledger

variable {l : Ledger} {types : TypePool} {key : RecordKey} {e : InstId}

def Asked (l : Ledger) (types : TypePool) (key : RecordKey) : Prop :=
  (∃ slot ∈ l.values, valueKey types slot = key) ∨ ∃ slot ∈ l.arrays, arrayKey types slot = key

theorem asked_iff : l.Asked types key ↔ ¬(l.valuesOf types key = [] ∧ l.arraysOf types key = []) := by
  simp only [Asked, valuesOf, arraysOf, List.filter_eq_nil_iff, beq_iff_eq, not_and_or, not_forall,
    not_not, exists_prop]

theorem ReadOf.asked (h : l.ReadOf types key e) : l.Asked types key := by
  rcases h with ⟨slot, hs, -⟩ | ⟨slot, hs, -⟩
  · exact .inl ⟨slot, mem_valuesOf.mp hs⟩
  · exact .inr ⟨slot, mem_arraysOf.mp hs⟩

theorem readOf_value {slot : ValueSlot} (h : slot ∈ l.values) :
    l.ReadOf types (valueKey types slot) slot.read :=
  .inl ⟨slot, mem_valuesOf.mpr ⟨h, rfl⟩, rfl⟩

theorem readOf_array {slot : ArraySlot} (h : slot ∈ l.arrays) {r : InstId × Value}
    (hr : r ∈ slot.reads) : l.ReadOf types (arrayKey types slot) r.1 :=
  .inr ⟨slot, mem_arraysOf.mpr ⟨h, rfl⟩, r, hr, rfl⟩

end Ledger

namespace Emission

variable {src : Source} {s : Emission}

theorem Accounted.apart_of_ne (h : s.Accounted src) {a b : ArraySlot} (ha : a ∈ s.ledger.arrays)
    (hb : b ∈ s.ledger.arrays) (hne : a ≠ b) : Ledger.Apart a b := by
  have : Std.Symm Ledger.Apart :=
    ⟨fun _ _ hab => ⟨fun hd r hr r' hr' => (hab.1 hd.symm r' hr' r hr).symm,
      fun ⟨hs, hd, hg, hp⟩ => hab.2 ⟨hs.symm, hd.symm, hg.symm, hp.symm⟩⟩⟩
  exact h.apart.forall ha hb hne

/-- The field of an array slot: the arrays of a record come after its values. -/
def HasField (s : Emission) (l : TransferLayout) (slot : ArraySlot) (f : Nat) : Prop :=
  ∃ j, (s.ledger.arraysOf s.types l.key)[j]? = some slot ∧
    f = (s.ledger.valuesOf s.types l.key).length + j

variable {a b : ValueSlot}

theorem Posted.apart_of_ne (h : s.Posted src) (ha : a ∈ s.ledger.values)
    (hb : b ∈ s.ledger.values) (hd : a.dst = b.dst) (hne : a ≠ b) :
    a.source ≠ b.source ∧ a.read ≠ b.read := by
  have : Std.Symm fun a b : ValueSlot => a.dst = b.dst → a.source ≠ b.source ∧ a.read ≠ b.read :=
    ⟨fun _ _ hab hd => ⟨(hab hd.symm).1.symm, (hab hd.symm).2.symm⟩⟩
  exact h.apart.forall ha hb hne hd

theorem Posted.eq_of_read (h : s.Posted src) (ha : a ∈ s.ledger.values)
    (hb : b ∈ s.ledger.values) (hd : a.dst = b.dst) (hr : a.read = b.read) : a = b := by
  by_contra hne
  exact (h.apart_of_ne ha hb hd hne).2 hr

theorem Posted.eq_of_source (h : s.Posted src) (ha : a ∈ s.ledger.values)
    (hb : b ∈ s.ledger.values) (hd : a.dst = b.dst) (hs : a.source = b.source) : a = b := by
  by_contra hne
  exact (h.apart_of_ne ha hb hd hne).1 hs

end Emission

namespace Source

open Emission

variable {src : Source} {s₁ s t : Emission} {done : List (RecordKey × String)}
  {layouts : List TransferLayout} {key key' : RecordKey} {e : InstId}

structure Waiting (src : Source) (s : Emission) : Prop where
  posted : s.Posted src
  accounted : s.Accounted src
  rooted : s.Rooted src
  grounded : s.types.Grounded
  values : ∀ slot ∈ s.ledger.values, slot.ty < s.types.size
  arrays : ∀ slot ∈ s.ledger.arrays, slot.elem < s.types.size
  fixed : s.ledger.fixed = []

theorem fieldType_lt {types : TypePool} {inst : Inst} (h : types.Grounded)
    (hi : inst.ty < types.size) : fieldType types inst < types.size := by
  unfold fieldType
  split
  · cases he : types.element inst.ty with
    | none => exact hi
    | some elem => exact Nat.lt_trans (h.element_lt _ elem he) hi
  · exact hi

theorem waiting_of_copyAll {tree : PostDominators} {types : TypePool} {scopes : List String}
    (hco : (src.copyAll tree).run (Emission.start src types scopes) = (.ok (), s))
    (hty : types.Grounded) (hin : ∀ inst ∈ src.func.insts, inst.ty < types.size) :
    Waiting src s := by
  have hc := (sat_copyAll_copying tree _).of_run hco
  have hp := hc.posted (posted_start src types scopes)
  have ha := hc.accounted (posted_start src types scopes) (accounted_start ..)
  obtain ⟨hs, hf⟩ := hc.sameRecords
  have hs : s.types = types := hs
  refine ⟨hp, ha, rooted_of_copyAll hco, hs ▸ hty, fun slot hsl => ?_,
    fun slot hsl => ?_, hf⟩
  · obtain ⟨-, -, d, inst, -, hi, haw⟩ := hp.slots slot hsl
    rw [haw.ty, hs]
    exact fieldType_lt hty (hin inst (Array.mem_of_getElem? hi))
  · obtain ⟨inst, hi, he⟩ := (ha.spans slot hsl).elem
    rw [he, hs]
    exact hin inst hi

theorem Waiting.key_unique (h : Waiting src s) (he : s.ledger.ReadOf s.types key e)
    (he' : s.ledger.ReadOf s.types key' e) (hd : key.dst = key'.dst) : key = key' := by
  have hm : ∀ {key key'}, key.dst = key'.dst →
      (∃ slot ∈ s.ledger.valuesOf s.types key, e = slot.read) →
      ¬∃ slot ∈ s.ledger.arraysOf s.types key', ∃ r ∈ slot.reads, e = r.1 := by
    rintro key key' hd ⟨a, ha, rfl⟩ ⟨b, hb, r, hr, heq⟩
    obtain ⟨hin, rfl⟩ := Ledger.mem_valuesOf.mp ha
    obtain ⟨hin', rfl⟩ := Ledger.mem_arraysOf.mp hb
    exact ((h.posted.arrays b hin').2 r hr).2 a hin hd heq
  rcases he with hv | har
  · rcases he' with hv' | ha'
    · obtain ⟨a, ha, rfl⟩ := hv
      obtain ⟨b, hb, heq⟩ := hv'
      obtain ⟨hin, rfl⟩ := Ledger.mem_valuesOf.mp ha
      obtain ⟨hin', rfl⟩ := Ledger.mem_valuesOf.mp hb
      rw [h.posted.eq_of_read hin hin' hd heq]
    · exact absurd ha' (hm hd hv)
  · rcases he' with hv' | ha'
    · exact absurd har (hm hd.symm hv')
    · obtain ⟨a, ha, r, hr, rfl⟩ := har
      obtain ⟨b, hb, r', hr', heq⟩ := ha'
      obtain ⟨hin, rfl⟩ := Ledger.mem_arraysOf.mp ha
      obtain ⟨hin', rfl⟩ := Ledger.mem_arraysOf.mp hb
      by_contra hne
      have hap := h.accounted.apart_of_ne hin hin' fun hab => hne (congrArg _ hab)
      exact hap.1 hd r hr r' hr' heq

theorem Waiting.exists_inst (h : Waiting src s) (he : s.ledger.ReadOf s.types key e) :
    ∃ d inst, s.drafts[key.dst.val]? = some d ∧ d.builder.func.insts[e]? = some inst := by
  rcases he with ⟨slot, hs, rfl⟩ | ⟨slot, hs, r, hr, rfl⟩
  · obtain ⟨hin, rfl⟩ := Ledger.mem_valuesOf.mp hs
    obtain ⟨-, -, d, inst, hd, -, ha⟩ := h.posted.slots slot hin
    exact ⟨d, _, hd, ha.read⟩
  · obtain ⟨hin, rfl⟩ := Ledger.mem_arraysOf.mp hs
    obtain ⟨⟨d, inst, hd, hi, -⟩, -⟩ := (h.posted.arrays slot hin).2 r hr
    exact ⟨d, inst, hd, hi⟩

def ReadOfAny (s : Emission) (keys : List RecordKey) (x : Scope) (e : InstId) : Prop :=
  ∃ key ∈ keys, x = key.dst ∧ s.ledger.ReadOf s.types key e

theorem Waiting.not_readOfAny (h : Waiting src s) {keys : List RecordKey}
    (he : s.ledger.ReadOf s.types key e) (hkey : key ∉ keys) : ¬ReadOfAny s keys key.dst e := by
  rintro ⟨key', hm, hd, he'⟩
  exact hkey (h.key_unique he he' hd ▸ hm)

/-- Some records are laid out: their reads have an address, and nothing else has changed. -/
structure Served (src : Source) (s₁ : Emission) (done : List (RecordKey × String))
    (layouts : List TransferLayout) (s : Emission) : Prop where
  edits : s₁.Edits src (· ∈ layouts) (fun _ => True) (ReadOfAny s₁ (done.map Prod.fst)) s
  fixed : ∀ key, key ∈ s.ledger.fixed ↔ key ∈ done.map Prod.fst
  named : (layouts.map fun l => (l.key, l.name)).Sublist done
  patched : ∀ key ∈ done.map Prod.fst, s₁.ledger.Asked s₁.types key →
    ∃ layout ∈ layouts, layout.key = key ∧ ∃ d, s.drafts[key.dst.val]? = some d ∧
      ∀ e, s₁.ledger.ReadOf s₁.types key e → d.Patched layout e

theorem served_nil (h : Waiting src s) : Served src s [] [] s :=
  ⟨(Edits.refl h.rooted).congr fun x e => by simp [ReadOfAny], by simp [h.fixed], .refl _, by simp⟩

section Served

variable (h : Served src s₁ done layouts s) (hs₁ : Waiting src s₁)
include h hs₁

theorem Served.valueKey_eq {slot : ValueSlot} (hs : slot ∈ s₁.ledger.values) :
    Ledger.valueKey s.types slot = Ledger.valueKey s₁.types slot := by
  rw [Ledger.valueKey, Ledger.valueKey,
    TypePool.isObject_extends hs₁.grounded h.edits.types (hs₁.values slot hs)]

theorem Served.arrayKey_eq {slot : ArraySlot} (hs : slot ∈ s₁.ledger.arrays) :
    Ledger.arrayKey s.types slot = Ledger.arrayKey s₁.types slot := by
  rw [Ledger.arrayKey, Ledger.arrayKey,
    TypePool.isObject_extends hs₁.grounded h.edits.types (hs₁.arrays slot hs)]

theorem Served.valuesOf (key : RecordKey) :
    s.ledger.valuesOf s.types key = s₁.ledger.valuesOf s₁.types key := by
  unfold Ledger.valuesOf
  rw [h.edits.values]
  exact List.filter_congr fun slot hs => by rw [h.valueKey_eq hs₁ hs]

theorem Served.arraysOf (key : RecordKey) :
    s.ledger.arraysOf s.types key = s₁.ledger.arraysOf s₁.types key := by
  unfold Ledger.arraysOf
  rw [h.edits.arrays]
  exact List.filter_congr fun slot hs => by rw [h.arrayKey_eq hs₁ hs]

theorem Served.asked_iff (key : RecordKey) :
    s.ledger.Asked s.types key ↔ s₁.ledger.Asked s₁.types key := by
  rw [Ledger.asked_iff, Ledger.asked_iff, h.valuesOf hs₁, h.arraysOf hs₁]

theorem Served.readOf_iff (key : RecordKey) (e : InstId) :
    s.ledger.ReadOf s.types key e ↔ s₁.ledger.ReadOf s₁.types key e := by
  rw [Ledger.ReadOf, Ledger.ReadOf, h.valuesOf hs₁, h.arraysOf hs₁]

theorem Served.patched_step {o : Option TransferLayout} {name : String}
    (ht : LayingOut src key name s o t) (hask : s₁.ledger.Asked s₁.types key) :
    ∃ layout ∈ o, layout.key = key ∧ ∃ d, t.drafts[key.dst.val]? = some d ∧
      ∀ e, s₁.ledger.ReadOf s₁.types key e → d.Patched layout e := by
  obtain ⟨he, -, hn⟩ := ht.edits h.edits.rooted
  cases o with
  | none =>
    cases ht with
    | empty hv ha =>
      exact absurd ⟨hv, ha⟩ (Ledger.asked_iff.mp ((h.asked_iff hs₁ key).mpr hask))
  | some layout =>
    obtain ⟨-, hkey, hh⟩ := hn layout rfl
    obtain ⟨d', -, hd', -⟩ := hh key.dst (.inr (congrArg RecordKey.dst hkey).symm)
    refine ⟨layout, rfl, hkey, d', hd', fun e hr => ?_⟩
    obtain ⟨d, hd, hs⟩ := he.back hd'
    obtain ⟨d1, inst1, hd1, hi1⟩ := hs₁.exists_inst hr
    obtain ⟨d2, hd2, hb⟩ := h.edits.drafts _ d1 hd1
    obtain rfl := Option.mem_unique hd2 hd
    obtain ⟨inst, hi⟩ : ∃ inst, d2.builder.func.insts[e]? = some inst := by
      rcases hb.exists_inst hi1 with ⟨hi, -⟩ | ⟨-, -, addr, hi⟩ <;> exact ⟨_, hi⟩
    obtain ⟨-, -, l, hl, hp⟩ := hs.patched e inst hi
      ⟨rfl, (h.readOf_iff hs₁ _ _).mpr hr⟩
    exact Option.some.inj hl ▸ hp

theorem Served.concat {o : Option TransferLayout} {name : String}
    (ht : LayingOut src key name s o t) :
    Served src s₁ (done ++ [(key, name)]) (layouts ++ o.toList) t := by
  obtain ⟨he, hf, hne⟩ := ht.edits h.edits.rooted
  refine ⟨?_, fun k => ?_, ?_, fun k hk ha => ?_⟩
  · refine ((h.edits.mono (fun l hl => List.mem_append_left _ hl) fun _ => id).trans (he.mono
      (fun l hl => List.mem_append_right _ (Option.mem_toList.mpr hl)) fun _ => id)).congr fun x e => ?_
    simp only [ReadOfAny, List.map_append, List.map_cons, List.map_nil, List.mem_append,
      List.mem_singleton, or_and_right, exists_or, exists_eq_left, h.readOf_iff hs₁]
  · rw [hf, List.mem_cons, h.fixed, List.map_append, List.mem_append, or_comm]
    simp
  · rw [List.map_append]
    refine h.named.append ?_
    cases o with
    | none => exact List.nil_sublist _
    | some l =>
      obtain ⟨hn, hkey, -⟩ := hne l rfl
      simp [hn, hkey]
  · by_cases hs : k = key
    · subst hs
      obtain ⟨l, hl, hre⟩ := h.patched_step hs₁ ht ha
      exact ⟨l, List.mem_append_right _ (Option.mem_toList.mpr hl), hre⟩
    · have hk : k ∈ done.map Prod.fst := by
        simpa [hs] using hk
      obtain ⟨l, hl, hlk, d, hd, hp⟩ := h.patched k hk ha
      obtain ⟨d', hd', hst⟩ := he.drafts _ d hd
      refine ⟨l, List.mem_append_left _ hl, hlk, d', hd', fun e hr => ?_⟩
      refine hst.patched_of (hp e hr) fun hR => hs ?_
      exact hs₁.key_unique hr ((h.readOf_iff hs₁ _ _).mp hR.2) hR.1

/-- Another record can still be wired: those that are laid out have left its slots alone. -/
theorem Served.wirable {l : TransferLayout} {types : TypePool}
    (hl : LaidAs s.types l.key l.name (s.ledger.valuesOf s.types l.key)
      (s.ledger.arraysOf s.types l.key) l types)
    (hask : s₁.ledger.Asked s₁.types l.key) (hkey : l.key ∉ done.map Prod.fst)
    (hdone : l.name ∉ done.map Prod.snd) (hn : ∀ decl ∈ src.program.globals, decl.name ≠ l.name) :
    Wirable src l (s.ledger.valuesOf s.types l.key) (s.ledger.arraysOf s.types l.key)
      { s with ledger := s.ledger.markFixed l.key, types := types } := by
  obtain ⟨ids, hf, -, hi⟩ := hl.fields
  have hne : l.src ≠ l.dst := by
    rcases hask with ⟨slot, hs, heq⟩ | ⟨slot, hs, heq⟩
    · have hlt := (hs₁.posted.slots slot hs).1
      obtain ⟨hsr, hds, -⟩ := RecordKey.mk.inj heq
      exact hsr ▸ hds ▸ ne_of_lt hlt
    · have hlt := (hs₁.posted.arrays slot hs).1
      obtain ⟨hsr, hds, -⟩ := RecordKey.mk.inj heq
      exact hsr ▸ hds ▸ ne_of_lt hlt
  have hro : Rooted src { s with ledger := s.ledger.markFixed l.key, types := types } :=
    (edits_of_drafts_eq (t := { s with ledger := s.ledger.markFixed l.key, types := types })
      (L := fun _ => False) (F := fun _ => False) h.edits.rooted hl.grows rfl rfl rfl).rooted
  refine ⟨hro, hne, fun scope d hd decl hde heq => ?_, hn,
    by rw [hf, List.length_append, List.length_map, hi.length_eq], fun j slot hj => ?_, ?_,
    fun slot hs => ?_, fun slot hs => ?_, fun slot hs => ?_, ?_⟩
  · obtain ⟨d1, hd1, he⟩ := h.edits.back hd
    rcases he.names decl hde with ho | ⟨decl', hd', hso⟩ | ⟨l', hl', -, rfl⟩
    · obtain ⟨decl', hd', hso⟩ := (hs₁.posted.closed _ d1 hd1).bindings decl ho
      exact hn decl' hd' (hso.trans heq)
    · exact hn decl' hd' (hso.trans heq)
    · have hme := h.named.subset (List.mem_map_of_mem hl')
      exact hdone (heq ▸ List.mem_map_of_mem hme)
  · have hlt := (List.getElem?_eq_some_iff.mp hj).1
    rw [hf, List.getElem?_append_left (by rwa [List.length_map]), List.getElem?_map, hj]
    rfl
  · rw [h.valuesOf hs₁]
    refine List.Pairwise.imp_of_mem (fun ha hb hab => ?_) (hs₁.posted.apart.filter _)
    exact (hab (congrArg RecordKey.dst ((Ledger.mem_valuesOf.mp ha).2.trans
      (Ledger.mem_valuesOf.mp hb).2.symm))).2
  · have hsl1 := hs
    rw [h.valuesOf hs₁] at hsl1
    obtain ⟨hme, heq⟩ := Ledger.mem_valuesOf.mp hsl1
    obtain ⟨-, -, d1, inst, hd1, -, haw⟩ := hs₁.posted.slots slot hme
    obtain ⟨d, hd, he⟩ := h.edits.drafts _ d1 hd1
    have hre : s₁.ledger.ReadOf s₁.types _ slot.read := Ledger.readOf_value hme
    rw [heq] at hre
    have hds : slot.dst = l.dst := congrArg RecordKey.dst heq
    refine ⟨(Ledger.mem_valuesOf.mp hs).1, congrArg RecordKey.src heq, hds, d, hds ▸ hd, ?_⟩
    rw [he.entry]
    exact he.kept _ _ haw.read (hds ▸ hs₁.not_readOfAny hre hkey)
  · obtain ⟨hme, heq⟩ := Ledger.mem_arraysOf.mp hs
    have hds : slot.dst = l.dst := congrArg RecordKey.dst heq
    refine ⟨hme, congrArg RecordKey.src heq, hds, fun r hr y hy => ?_⟩
    rw [h.edits.arrays] at hme
    obtain ⟨hm, heqy⟩ := Ledger.mem_valuesOf.mp hy
    rw [h.edits.values] at hm
    exact ((hs₁.posted.arrays slot hme).2 r hr).2 y hm
      ((congrArg RecordKey.dst heqy).trans hds.symm)
  · exact hs₁.accounted.distinct slot (h.edits.arrays ▸ (Ledger.mem_arraysOf.mp hs).1)
  · rw [h.arraysOf hs₁]
    refine List.Pairwise.imp_of_mem (fun ha hb hab => hab.1 ?_) (hs₁.accounted.apart.filter _)
    exact congrArg RecordKey.dst ((Ledger.mem_arraysOf.mp ha).2.trans (Ledger.mem_arraysOf.mp hb).2.symm)

end Served

theorem Served.sat_layOut (h : Served src s₁ done layouts s) (hs₁ : Waiting src s₁)
    (r : RecordKey × String) : Act.Sat Act.Any (src.layOut r.1 r.2) s fun o t =>
      Served src s₁ (done ++ [r]) (layouts ++ o.toList) t ∧ s.types.Extends t.types :=
  (sat_layOut_layingOut r.1 r.2 s).mono fun _ _ ht =>
    ⟨h.concat hs₁ ht, (ht.edits h.edits.rooted).1.types⟩

theorem Served.sat_layOutAll (h : Served src s₁ done layouts s) (hs₁ : Waiting src s₁)
    (records : List (RecordKey × String)) :
    Act.Sat Act.Any (src.layOutAll records) s fun layouts' t =>
      Served src s₁ (done ++ records) (layouts ++ layouts') t :=
  sat_layOutAll_of_step (P := Served src s₁) (fun _ _ _ r h =>
    (h.sat_layOut hs₁ r).mono fun _ _ ht => ht.1) done h records

/-- The values of some records that are laid out have fields, and so do the elements of their arrays. -/
structure Laid (src : Source) (s₁ : Emission) (done : List (RecordKey × String))
    (layouts : List TransferLayout) (s : Emission) : Prop extends Served src s₁ done layouts s where
  carried : ∀ slot ∈ s₁.ledger.values, Ledger.valueKey s₁.types slot ∈ done.map Prod.fst →
    ∃ layout ∈ layouts, ∃ f, s.Carries slot layout f
  fronts : s₁.Fronts src (fun slot l f => l ∈ layouts ∧ s₁.HasField l slot f) s
  addressed : ∀ l ∈ layouts, ∀ slot f, s₁.HasField l slot f →
    s.Meets l.dst fun d => ∀ r ∈ slot.reads, d.ReadsElement l f r

theorem laid_nil (h : Waiting src s) : Laid src s [] [] s := by
  refine ⟨served_nil h, by simp, fun x d d' hd hd' => ?_, by simp⟩
  obtain rfl := Option.mem_unique hd hd'
  exact Draft.fronts_of_before List.prefix_rfl (by simp)

section Concat

variable {o : Option TransferLayout} {name : String} (h : Laid src s₁ done layouts s)
  (hs₁ : Waiting src s₁) (ht : LayingOut src key name s o t) (hkey : key ∉ done.map Prod.fst)
  (hdone : name ∉ done.map Prod.snd)
  (hnames : ∀ n ∈ (done ++ [(key, name)]).map Prod.snd, ∀ decl ∈ src.program.globals,
    decl.name ≠ n)
include h hs₁ ht hkey hdone hnames

/-- A value of the new record gets its field there, and those of earlier records keep theirs. -/
theorem Laid.carried_concat (slot : ValueSlot) (hs : slot ∈ s₁.ledger.values)
    (hsl : Ledger.valueKey s₁.types slot ∈ (done ++ [(key, name)]).map Prod.fst) :
    ∃ layout ∈ layouts ++ o.toList, ∃ f, t.Carries slot layout f := by
  obtain ⟨he, -, hn⟩ := ht.edits h.edits.rooted
  by_cases ho : Ledger.valueKey s₁.types slot ∈ done.map Prod.fst
  · obtain ⟨layout, hla, f, hc⟩ := h.carried slot hs ho
    have hm : layout.name ∈ done.map Prod.snd :=
      List.mem_map_of_mem (h.named.subset (List.mem_map_of_mem hla))
    refine ⟨layout, List.mem_append_left _ hla, f, hc.edits h.edits.rooted he
      (hnames _ (by simp only [List.map_append]; exact List.mem_append_left _ hm)) ?_
      fun _ l hl heq => hdone ?_⟩
    · rintro ⟨hd, hr⟩
      have heq := hs₁.key_unique (Ledger.readOf_value hs) ((h.readOf_iff hs₁ _ _).mp hr) hd
      exact hkey (heq ▸ ho)
    · rw [← (hn l hl).1, heq]
      exact hm
  · have heq : Ledger.valueKey s₁.types slot = key := by simpa [ho] using hsl
    have hs' : slot ∈ s₁.ledger.valuesOf s₁.types key := Ledger.mem_valuesOf.mpr ⟨hs, heq⟩
    rw [← h.valuesOf hs₁] at hs'
    cases ht with
    | empty hv _ =>
      rw [hv] at hs'
      cases hs'
    | @wired l types _ _ hlai hwi =>
      obtain ⟨j, hj⟩ := List.mem_iff_getElem?.mp hs'
      have hlt := (List.getElem?_eq_some_iff.mp hj).1
      obtain rfl := hlai.name
      obtain rfl := hlai.key
      have hw := h.wirable hs₁ hlai (.inl ⟨slot, hs, heq⟩) hkey hdone (hnames _ (by simp))
      exact ⟨l, List.mem_append_right _ (List.mem_singleton_self _), j,
        hw.carries hwi (Nat.lt_add_right _ hlt) hj⟩

theorem Laid.fronts_concat :
    s₁.Fronts src (fun slot l f => l ∈ layouts ++ o.toList ∧ s₁.HasField l slot f) t := by
  obtain ⟨he, -, -⟩ := ht.edits h.edits.rooted
  cases ht with
  | empty _ _ =>
    rw [Option.toList_none, List.append_nil]
    exact h.fronts
  | @wired l types _ ha hl hwi =>
    obtain rfl := hl.name
    obtain rfl := hl.key
    have hw := h.wirable hs₁ hl ((h.asked_iff hs₁ _).mp (Ledger.asked_iff.mpr ha)) hkey
      hdone (hnames _ (by simp))
    refine h.fronts.trans (hw.fronts hwi) h.edits he ?_ fun slot l' f => ?_
    · rintro x d e hd ⟨rfl, hr⟩
      obtain ⟨d', inst, hd', hi⟩ := hs₁.exists_inst ((h.readOf_iff hs₁ _ _).mp hr)
      obtain rfl := Option.mem_unique hd hd'
      exact (Array.getElem?_eq_some_iff.mp hi).1
    · rw [Option.toList_some, List.mem_append, List.mem_singleton, or_and_right, h.valuesOf hs₁,
        h.arraysOf hs₁]
      refine or_congr_right (and_congr_right fun heq => ?_)
      subst heq
      refine ⟨fun ⟨j, hj, heq⟩ => ⟨?_, j, hj, heq⟩, And.right⟩
      rw [heq]
      exact Nat.add_lt_add_left (List.getElem?_eq_some_iff.mp hj).1 _

theorem Laid.addressed_concat (l : TransferLayout) (hl : l ∈ layouts ++ o.toList) (slot : ArraySlot)
    (f : Nat) (hf : s₁.HasField l slot f) :
    t.Meets l.dst fun d => ∀ r ∈ slot.reads, d.ReadsElement l f r := by
  obtain ⟨he, -, -⟩ := ht.edits h.edits.rooted
  obtain ⟨j, hj, rfl⟩ := hf
  rcases List.mem_append.mp hl with hl | hl
  · refine (h.addressed l hl slot _ ⟨j, hj, rfl⟩).edits_reads he ?_
    rintro r hr ⟨hd, hre⟩
    have heq : l.key = key := hs₁.key_unique (.inr ⟨slot, List.mem_of_getElem? hj, r, hr, rfl⟩)
      ((h.readOf_iff hs₁ _ _).mp hre) hd
    exact hkey (heq ▸ List.mem_map_of_mem (h.named.subset (List.mem_map_of_mem hl)))
  · cases ht with
    | empty _ _ => cases hl
    | @wired l' types _ ha hla hwi =>
      obtain rfl := List.mem_singleton.mp hl
      obtain rfl := hla.name
      obtain rfl := hla.key
      have hw := h.wirable hs₁ hla ((h.asked_iff hs₁ _).mp (Ledger.asked_iff.mpr ha)) hkey
        hdone (hnames _ (by simp))
      rw [← h.arraysOf hs₁] at hj
      rw [← h.valuesOf hs₁]
      exact hw.addressed hwi
        (Nat.add_lt_add_left (List.getElem?_eq_some_iff.mp hj).1 _) hj

theorem Laid.concat : Laid src s₁ (done ++ [(key, name)]) (layouts ++ o.toList) t :=
  ⟨h.toServed.concat hs₁ ht, h.carried_concat hs₁ ht hkey hdone hnames,
    h.fronts_concat hs₁ ht hkey hdone hnames, h.addressed_concat hs₁ ht hkey hdone hnames⟩

end Concat

theorem sat_layOutAll_laid {records : List (RecordKey × String)} (hs : Waiting src s)
    (hk : (records.map Prod.fst).Nodup) (hno : (records.map Prod.snd).Nodup)
    (hnames : ∀ n ∈ records.map Prod.snd, ∀ decl ∈ src.program.globals, decl.name ≠ n) :
    Act.Sat Act.Any (src.layOutAll records) s fun layouts t => Laid src s records layouts t := by
  -- a record is laid out while the names so far are new and different
  refine (sat_layOutAll_of_step (P := fun done layouts t => (done.map Prod.fst).Nodup →
    (done.map Prod.snd).Nodup →
    (∀ n ∈ done.map Prod.snd, ∀ decl ∈ src.program.globals, decl.name ≠ n) →
    Laid src s done layouts t) ?_ [] (fun _ _ _ => laid_nil hs) records).mono
    fun layouts t h => h hk hno hnames
  intro done layouts u r h
  refine (sat_layOut_layingOut r.1 r.2 u).mono fun o t ht hk hno hnames => ?_
  rw [List.map_append, List.nodup_append] at hk hno
  have hl := h hk.1 hno.1 fun n hn => hnames n (by
    rw [List.map_append]
    exact List.mem_append_left _ hn)
  exact hl.concat hs ht (fun hm => hk.2.2 _ hm _ (List.mem_singleton_self _) rfl)
    (fun hm => hno.2.2 _ hm _ (List.mem_singleton_self _) rfl) hnames

end Source

end Stagewise
