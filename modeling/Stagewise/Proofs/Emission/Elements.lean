import Stagewise.Proofs.Emission.Fields

namespace Stagewise

namespace Draft

variable {src : Source} {L : TransferLayout → Prop} {F : Nat → Prop} {x : Scope}
  {R : InstId → Prop} {d d' d'' : Draft} {slot : ArraySlot} {l : TransferLayout} {f p : Nat}
  {A B C : ArraySlot → TransferLayout → Nat → Prop}

/-- A load and a store of the entry block copy the element of a slot at a position into a field. -/
def CopiesElement (src : Source) (d : Draft) (slot : ArraySlot) (l : TransferLayout) (f p : Nat)
    (y : InstId × InstId) : Prop :=
  ∃ g record, d.Redeclares src slot.global g ∧
    d.program.globals[record]? = some (.plain l.name l.record) ∧
    d.builder.func.insts[y.1]?
      = some ⟨.load (.member g (slot.path.map (·.getD p))), slot.elem, d.entry⟩ ∧
    d.builder.func.insts[y.2]?
      = some ⟨.store (.inst y.1) (.member record [f, p]), TypeId.void, d.entry⟩

theorem CopiesElement.edits {y : InstId × InstId} (h : d.CopiesElement src slot l f p y)
    (he : d.Edits src L F x R d') (hR : ¬R y.1) : d'.CopiesElement src slot l f p y := by
  obtain ⟨g, record, hg, hr, hl, hst⟩ := h
  refine ⟨g, record, hg.of_grown he.bindings, getElem?_extend he.bindings hr, ?_, ?_⟩
  · rw [he.entry]
    exact he.kept _ _ hl hR
  · rw [he.entry]
    exact he.getElem? hst (by simp)

def inTurn (pairs : List (InstId × InstId)) : List InstId := pairs.flatMap fun y => [y.1, y.2]

/-- Before what a part began with stand the copies of all elements of some slots into fields. -/
def Fronts (src : Source) (A : ArraySlot → TransferLayout → Nat → Prop) (d d' : Draft) : Prop :=
  ∃ front more, d'.builder.func.instsOf d.entry
      = inTurn front ++ (d.builder.func.instsOf d.entry ++ more) ∧
    (∀ y ∈ front, d.builder.func.numInsts ≤ y.1 ∧ ∃ slot l f p, A slot l f ∧ p < slot.len ∧
      d'.CopiesElement src slot l f p y) ∧
    ∀ slot l f, A slot l f → ∀ p < slot.len, ∃ y ∈ front, d'.CopiesElement src slot l f p y

theorem fronts_of_before (h : d.builder.func.instsOf d.entry <+: d'.builder.func.instsOf d.entry)
    (hA : ∀ slot l f, ¬A slot l f) : d.Fronts src A d' := by
  obtain ⟨more, hm⟩ := h
  exact ⟨[], more, hm.symm, by simp, fun slot l f ha => absurd ha (hA slot l f)⟩

theorem Fronts.trans (h : d.Fronts src A d') (h' : d'.Fronts src B d'')
    (hen : d'.entry = d.entry) (hle : d.builder.func.numInsts ≤ d'.builder.func.numInsts)
    (he : d'.Edits src L F x R d'') (hR : ∀ e, R e → e < d.builder.func.numInsts)
    (hC : ∀ slot l f, C slot l f ↔ A slot l f ∨ B slot l f) : d.Fronts src C d'' := by
  obtain ⟨front, more, hl, ho, hal⟩ := h
  obtain ⟨front', more', hl', ho', ha'⟩ := h'
  have hk : ∀ {y slot l f p}, y ∈ front → d'.CopiesElement src slot l f p y →
      d''.CopiesElement src slot l f p y := fun hy hco =>
    hco.edits he fun hr => Nat.not_lt.mpr (ho _ hy).1 (hR _ hr)
  refine ⟨front' ++ front, more ++ more', ?_, fun y hy => ?_, fun slot l f hc p hp => ?_⟩
  · rw [hen, hl] at hl'
    simp only [hl', inTurn, List.flatMap_append, List.append_assoc]
  · rcases List.mem_append.mp hy with hy | hy
    · obtain ⟨hba, slot, l, f, p, hb, hp, hco⟩ := ho' y hy
      exact ⟨Nat.le_trans hle hba, slot, l, f, p, (hC slot l f).mpr (.inr hb), hp, hco⟩
    · obtain ⟨hba, slot, l, f, p, ha, hp, hco⟩ := ho y hy
      exact ⟨hba, slot, l, f, p, (hC slot l f).mpr (.inl ha), hp, hk hy hco⟩
  · rcases (hC slot l f).mp hc with ha | hb
    · obtain ⟨y, hy, hco⟩ := hal slot l f ha p hp
      exact ⟨y, List.mem_append_right _ hy, hk hy hco⟩
    · obtain ⟨y, hy, hco⟩ := ha' slot l f hb p hp
      exact ⟨y, List.mem_append_left _ hy, hco⟩

theorem before_append (d : Draft) (b block : BlockId) (ty : TypeId) (op : Operation) :
    d.builder.func.instsOf b <+: (d.append block ty op).2.builder.func.instsOf b := by
  show _ <+: (d.builder.func.append block ty op).2.instsOf b
  by_cases hb : b = block
  · subst hb
    by_cases hlt : b < d.builder.func.numBlocks
    · rw [Function.append_instsOf _ _ hlt]
      exact List.prefix_append ..
    · rw [Function.instsOf_eq_nil (Nat.not_lt.mp hlt)]
      exact List.nil_prefix
  · rw [Function.append_instsOf_ne _ _ hb]

theorem before_storeField (d : Draft) (b : BlockId) (record : GlobalId) (f : Nat) (slot : ValueSlot)
    (v : Value) :
    d.builder.func.instsOf b <+: (d.storeField record f slot v).builder.func.instsOf b := by
  cases hs : slot.scalarized with
  | false =>
    rw [storeField_whole hs]
    exact d.before_append ..
  | true =>
    rw [storeField_lane hs]
    exact (d.before_append ..).trans (before_append ..)

section Elements

variable (record : GlobalId) (f : Nat) (slot : ArraySlot) (g : GlobalId)

/-- The instructions that copy the first positions of a slot, from the next one on. -/
def pairsFrom (base n : Nat) : List (InstId × InstId) :=
  (List.range n).map fun p => (base + 2 * p, base + 2 * p + 1)

theorem inTurn_pairsFrom_succ (base n : Nat) : inTurn (pairsFrom base (n + 1))
    = inTurn (pairsFrom base n) ++ [base + 2 * n, base + 2 * n + 1] := by
  simp [inTurn, pairsFrom, List.range_succ]

theorem length_inTurn_pairsFrom (base n : Nat) : (inTurn (pairsFrom base n)).length = 2 * n := by
  induction n with
  | zero => rfl
  | succ n ih => simp [inTurn_pairsFrom_succ, ih, Nat.mul_succ]

/-- Copying elements one by one adds a load and a store for each, at the start of the part. -/
theorem exists_copyPositions (hen : d.entry < d.builder.func.numBlocks) (n : Nat) :
    ∃ func, (List.range n).foldl (copyPosition record f slot g) d
        = { d with builder := { d.builder with func := func } } ∧
      func.entry = d.entry ∧ func.numBlocks = d.builder.func.numBlocks ∧
      func.numInsts = d.builder.func.numInsts + 2 * n ∧
      func.instsOf d.entry
        = inTurn (pairsFrom d.builder.func.numInsts n) ++ d.builder.func.instsOf d.entry ∧
      ∀ p < n, func.insts[d.builder.func.numInsts + 2 * p]?
          = some ⟨.load (.member g (slot.path.map (·.getD p))), slot.elem, d.entry⟩ ∧
        func.insts[d.builder.func.numInsts + 2 * p + 1]?
          = some ⟨.store (.inst (d.builder.func.numInsts + 2 * p)) (.member record [f, p]),
            TypeId.void, d.entry⟩ := by
  induction n with
  | zero => exact ⟨_, rfl, rfl, rfl, rfl, rfl, by simp⟩
  | succ n ih =>
    obtain ⟨func, hfo, hf, hb, hsi, hl, hi⟩ := ih
    let func1 := (func.insertAt d.entry (2 * n) slot.elem
      (.load (.member g (slot.path.map (·.getD n))))).2
    let func2 := (func1.insertAt d.entry (2 * n + 1) TypeId.void
      (.store (.inst func.numInsts) (.member record [f, n]))).2
    have hs1 : func1.numInsts = func.numInsts + 1 := Function.insertAt_numInsts ..
    have hk1 : ∀ e < func.numInsts, func1.insts[e]? = func.insts[e]? :=
      fun e he => Function.insertAt_getElem?_insts _ _ _ _ he
    have hk2 : ∀ e < func1.numInsts, func2.insts[e]? = func1.insts[e]? :=
      fun e he => Function.insertAt_getElem?_insts _ _ _ _ he
    have hbl : d.entry < func.numBlocks := hb ▸ hen
    refine ⟨func2, ?_, hf, ?_, ?_, ?_, fun p hp => ?_⟩
    · rw [List.range_succ, List.foldl_append, hfo]
      simp only [func2, func1, ← hf]
      rfl
    · rw [Function.insertAt_numBlocks, Function.insertAt_numBlocks, hb]
    · rw [Function.insertAt_numInsts, hs1, hsi]
      omega
    · have hl1 : func1.instsOf d.entry = (inTurn (pairsFrom d.builder.func.numInsts n)
          ++ [func.numInsts]) ++ d.builder.func.instsOf d.entry := by
        rw [Function.insertAt_instsOf _ _ _ hbl, hl, List.take_left' (length_inTurn_pairsFrom ..),
          List.drop_left' (length_inTurn_pairsFrom ..)]
        simp
      rw [Function.insertAt_instsOf _ _ _ (by rwa [Function.insertAt_numBlocks]), hl1,
        List.take_left' (by simp [length_inTurn_pairsFrom]),
        List.drop_left' (by simp [length_inTurn_pairsFrom]), hs1, inTurn_pairsFrom_succ, ← hsi]
      simp
    · rcases Nat.lt_succ_iff_lt_or_eq.mp hp with hp | rfl
      · obtain ⟨hlo, hst⟩ := hi p hp
        rw [hk2 _ (by omega), hk1 _ (by omega), hk2 _ (by omega), hk1 _ (by omega)]
        exact ⟨hlo, hst⟩
      · rw [← hsi, hk2 _ (by omega)]
        exact ⟨Function.insertAt_getElem?_insts_self .., hs1 ▸ Function.insertAt_getElem?_insts_self ..⟩

variable {record f slot g} {r : InstId × Value}

theorem fronts_copyElements (hd : d.Rooted src) (hg : d.Redeclares src slot.global g)
    (hr : d.program.globals[record]? = some (.plain l.name l.record)) :
    d.Fronts src (fun slot' l' f' => slot' = slot ∧ l' = l ∧ f' = f)
      (d.copyElements record f slot g) := by
  obtain ⟨func, hf, he, -, -, hl, hi⟩ :=
    exists_copyPositions record f slot g hd.entry_lt slot.len
  have hc : ∀ p < slot.len, (d.copyElements record f slot g).CopiesElement src slot l f p
      (d.builder.func.numInsts + 2 * p, d.builder.func.numInsts + 2 * p + 1) := by
    intro p hp
    rw [copyElements, hf]
    refine ⟨g, record, hg, hr, ?_⟩
    rw [show Draft.entry { d with builder := { d.builder with func := func } } = d.entry from he]
    exact hi p hp
  refine ⟨pairsFrom d.builder.func.numInsts slot.len, [], ?_, fun y hy => ?_, ?_⟩
  · rw [copyElements, hf, List.append_nil]
    exact hl
  · obtain ⟨p, hp, rfl⟩ := List.mem_map.mp hy
    have hp := List.mem_range.mp hp
    exact ⟨Nat.le_add_right .., slot, l, f, p, ⟨rfl, rfl, rfl⟩, hp, hc p hp⟩
  · rintro slot l f ⟨rfl, rfl, rfl⟩ p hp
    exact ⟨_, List.mem_map_of_mem (List.mem_range.mpr hp), hc p hp⟩

theorem instsOf_patchReads (d : Draft) (b : BlockId) :
    (d.patchReads record f slot).builder.func.instsOf b = d.builder.func.instsOf b := by
  unfold patchReads
  induction slot.reads generalizing d with
  | nil => rfl
  | cons r rest ih => exact ih _

def ReadsElement (l : TransferLayout) (f : Nat) (r : InstId × Value) (d : Draft) : Prop :=
  ∃ record inst, d.program.globals[record]? = some (.plain l.name l.record) ∧
    d.builder.func.insts[r.1]? = some inst ∧
    inst.op = .load (.element record [.fixed f, .dynamic r.2])

theorem ReadsElement.edits (h : d.ReadsElement l f r) (he : d.Edits src L F x R d') (hR : ¬R r.1) :
    d'.ReadsElement l f r := by
  obtain ⟨record, inst, hr, hi, hop⟩ := h
  exact ⟨record, inst, getElem?_extend he.bindings hr, he.kept _ _ hi hR, hop⟩

variable (record f slot) in
theorem getElem?_patchReads {e : InstId} {inst : Inst} (he : d.builder.func.insts[e]? = some inst) :
    (∃ r ∈ slot.reads, r.1 = e ∧ (d.patchReads record f slot).builder.func.insts[e]?
      = some { inst with op := .load (.element record [.fixed f, .dynamic r.2]) }) ∨
    (∀ r ∈ slot.reads, r.1 ≠ e) ∧ (d.patchReads record f slot).builder.func.insts[e]? = some inst := by
  unfold patchReads
  induction slot.reads generalizing d inst with
  | nil => exact .inr ⟨by simp, he⟩
  | cons r rest ih =>
    let op := Operation.load (.element record [.fixed f, .dynamic r.2])
    have hse : (d.setOp r.1 op).builder.func.insts[e]?
        = some (if r.1 = e then { inst with op := op } else inst) := by
      show (d.builder.func.setOp r.1 op).insts[e]? = _
      rw [Function.setOp_getElem?_insts, he]
      split <;> rfl
    rcases ih hse with ⟨r', hr', heq, hn⟩ | ⟨hne, ho⟩
    · refine .inl ⟨r', List.mem_cons_of_mem _ hr', heq, hn.trans ?_⟩
      split <;> rfl
    · by_cases hr : r.1 = e
      · rw [if_pos hr] at ho
        exact .inl ⟨r, List.mem_cons_self, hr, ho⟩
      · rw [if_neg hr] at ho
        exact .inr ⟨List.forall_mem_cons.mpr ⟨hr, hne⟩, ho⟩

theorem readsElement_patchReads (hd : (slot.reads.map Prod.fst).Nodup)
    (hre : d.program.globals[record]? = some (.plain l.name l.record)) (hr : r ∈ slot.reads)
    (hl : d.Loads r.1) : (d.patchReads record f slot).ReadsElement l f r := by
  obtain ⟨inst, addr, hi, -⟩ := hl
  rcases getElem?_patchReads record f slot hi with ⟨r', hr', heq, hn⟩ | ⟨hne, -⟩
  · obtain rfl := List.inj_on_of_nodup_map hd hr' hr heq
    exact ⟨record, _, by rwa [patchReads_program], hn, rfl⟩
  · exact absurd rfl (hne r hr)

end Elements

end Draft

namespace Emission

variable {src : Source} {s t u : Emission} {L M : TransferLayout → Prop} {F G : Nat → Prop}
  {R S : Scope → InstId → Prop} {d d' e e' : Draft} {l : TransferLayout} {values : List ValueSlot}
  {arrays : List ArraySlot} {k : Nat} {A B C : ArraySlot → TransferLayout → Nat → Prop}
  {scope : Scope}

def Fronts (src : Source) (A : ArraySlot → TransferLayout → Nat → Prop) (s t : Emission) : Prop :=
  ∀ (x : Scope) (d d' : Draft), s.drafts[x.val]? = some d → t.drafts[x.val]? = some d' →
    d.Fronts src (fun slot l f => slot.src = x ∧ A slot l f) d'

theorem Fronts.trans (h : s.Fronts src A t) (h' : t.Fronts src B u) (hst : s.Edits src L F R t)
    (htu : t.Edits src M G S u)
    (hS : ∀ (x : Scope) (d : Draft) (i : InstId), s.drafts[x.val]? = some d → S x i →
      i < d.builder.func.numInsts)
    (hC : ∀ slot l f, C slot l f ↔ A slot l f ∨ B slot l f) : s.Fronts src C u := by
  intro x d d'' hd hd''
  obtain ⟨d', hd', he⟩ := hst.drafts x d hd
  obtain ⟨e, he', hste⟩ := htu.drafts x d' hd'
  obtain rfl := Option.mem_unique he' hd''
  exact (h x d d' hd hd').trans (h' x d' e hd' hd'') he.entry he.numInsts_le hste
    (fun i hi => hS x d i hd hi) fun slot l f => by rw [hC, and_or_left]

theorem fronts_setDraft (hd : s.drafts[scope.val]? = some d) (h : d.Fronts src A d')
    (hA : ∀ slot l f, A slot l f → slot.src = scope) : s.Fronts src A (s.setDraft scope d') := by
  intro x c c' hc hc'
  rcases setDraft_scope_cases hd hc' with ⟨rfl, rfl⟩ | ⟨hx, hc'⟩
  · obtain rfl := Option.mem_unique hd hc
    have heq : (fun slot l f => slot.src = x ∧ A slot l f) = A := by
      funext slot l f
      exact propext ⟨And.right, fun ha => ⟨hA slot l f ha, ha⟩⟩
    rw [heq]
    exact h
  · obtain rfl := Option.mem_unique hc hc'
    exact Draft.fronts_of_before List.prefix_rfl fun slot l f ha => hx (ha.1.symm.trans (hA slot l f ha.2))

theorem Fronts.setDraft (h : s.Fronts src A t) (he : t.drafts[scope.val]? = some e)
    (hl : ∀ b, e'.builder.func.instsOf b = e.builder.func.instsOf b)
    (hA : ∀ slot l f, A slot l f → slot.src ≠ scope) : s.Fronts src A (t.setDraft scope e') := by
  intro x c c' hc hc'
  rcases setDraft_scope_cases he hc' with ⟨rfl, rfl⟩ | ⟨-, hc'⟩
  · have hn : ∀ slot l f, ¬(slot.src = x ∧ A slot l f) := fun slot l f ha => hA slot l f ha.2 ha.1
    obtain ⟨front, more, hf, ho, -⟩ := h x c e hc he
    cases front with
    | nil =>
      refine Draft.fronts_of_before ⟨more, ?_⟩ hn
      rw [hl, hf]
      rfl
    | cons y _ =>
      obtain ⟨-, slot, l, f, -, ha, -⟩ := ho y List.mem_cons_self
      exact absurd ha (hn slot l f)
  · exact h x c c' hc hc'

theorem Meets.edits_reads {x : Scope} {slot : ArraySlot} {f : Nat}
    (h : s.Meets x fun d => ∀ r ∈ slot.reads, d.ReadsElement l f r) (he : s.Edits src L F R t)
    (hR : ∀ r ∈ slot.reads, ¬R x r.1) :
    t.Meets x fun d => ∀ r ∈ slot.reads, d.ReadsElement l f r := by
  intro d' hd' r hr
  obtain ⟨d, hd, hed⟩ := he.back hd'
  exact (h d hd r hr).edits hed (hR r hr)

section Wirable

variable (hs : Wirable src l values arrays s)
include hs

/-- A record under a new name as far as some field: the part that its values come from begins with the
elements of the arrays before. -/
theorem Wirable.fronts (h : Wiring src l values arrays s k t) :
    s.Fronts src (fun slot l' f => l' = l ∧ f < k ∧
      ∃ j, arrays[j]? = some slot ∧ f = values.length + j) t := by
  induction h with
  | @declared d e hd he =>
    have hn : ∀ (slot : ArraySlot) (l' : TransferLayout) (f : Nat), ¬(l' = l ∧ f < 0 ∧
        ∃ j, arrays[j]? = some slot ∧ f = values.length + j) := fun _ _ f hf => Nat.not_lt_zero f hf.2.1
    refine (fronts_setDraft hd (Draft.fronts_of_before ?_ hn)
      fun slot l' f hf => absurd hf (hn slot l' f)).setDraft he (fun _ => rfl)
      fun slot l' f hf => absurd hf (hn slot l' f)
    exact List.prefix_rfl
  | @step k k' t u hw hst ih =>
    have hed := hs.edits hw
    -- the reads of a record were there before it
    have hre : ∀ (x : Scope) (d : Draft) (i : InstId), s.drafts[x.val]? = some d →
        (x = l.dst ∧ ∃ f, (k ≤ f ∧ f < k') ∧ ReadsAt values arrays f i) →
        i < d.builder.func.numInsts := by
      rintro x d i hd ⟨rfl, f, -, hre⟩
      have hex : s.Expects l.dst.val i := by
        rcases hre with ⟨slot, hsl, rfl⟩ | ⟨j, slot, -, hsl, r, hr, rfl⟩
        · obtain ⟨hm, -, hds, -⟩ := hs.awaited slot (List.mem_of_getElem? hsl)
          exact .inl ⟨slot, hm, congrArg Fin.val hds, rfl⟩
        · obtain ⟨hm, -, hds, -⟩ := hs.copied slot (List.mem_of_getElem? hsl)
          exact .inr ⟨slot, hm, congrArg Fin.val hds, r, hr, rfl⟩
      obtain ⟨inst, addr, hin, -⟩ := hs.rooted.loads _ i hex d hd
      exact (Array.getElem?_eq_some_iff.mp hin).1
    have hne := hs.edits_step hw hst
    cases hst with
    | global hd _ _ =>
      exact ih.trans (fronts_setDraft (A := fun _ _ _ => False) hd
        (Draft.fronts_of_before List.prefix_rfl fun _ _ _ => id) fun _ _ _ => False.elim) hed
        hne hre fun _ _ _ => by simp
    | @value _ new stored loaded v d e hnew hd _ _ he _ =>
      have hlt := (List.getElem?_eq_some_iff.mp hnew).1
      refine ih.trans ((fronts_setDraft (A := fun _ _ _ => False) hd (Draft.fronts_of_before
        (d.before_storeField ..) fun _ _ _ => id) fun _ _ _ => False.elim).setDraft he (fun _ => rfl)
        fun _ _ _ => False.elim) hed hne hre fun slot l' f => ?_
      rw [or_false]
      refine and_congr_right fun _ => ⟨fun ⟨hf, j, _, heq⟩ => ?_, fun ⟨hf, hres⟩ => ⟨by omega, hres⟩⟩
      omega
    | @array j new stored loaded g d e hnew hd hsto hg he _ =>
      have hsr := (hs.copied new (List.mem_of_getElem? hnew)).2.1
      have hro := hed.rooted.drafts _ d hd
      have hfr := Draft.fronts_copyElements (f := values.length + j) hro
        (hro.globals _ g hg) ((hs.confined hw _ d hd).getElem? hsto)
      refine ih.trans ((fronts_setDraft hd hfr fun slot l' f hf => hf.1 ▸ hsr).setDraft he
        (Draft.instsOf_patchReads e) fun slot l' f hf => hf.1 ▸ hsr ▸ hs.ne) hed hne hre
        fun slot l' f => ⟨?_, ?_⟩
      · rintro ⟨rfl, hf, i, hi, rfl⟩
        rcases Nat.lt_succ_iff_lt_or_eq.mp hf with hf | heq
        · exact .inl ⟨rfl, hf, i, hi, rfl⟩
        · obtain rfl : i = j := Nat.add_left_cancel heq
          exact .inr ⟨Option.mem_unique hi hnew, rfl, rfl⟩
      · rintro (⟨rfl, hf, hres⟩ | ⟨rfl, rfl, rfl⟩)
        · exact ⟨rfl, Nat.lt_succ_of_lt hf, hres⟩
        · exact ⟨rfl, Nat.lt_succ_self _, j, hnew, rfl⟩

theorem Wirable.addressed (h : Wiring src l values arrays s k t) {j : Nat} {slot : ArraySlot}
    (hj : values.length + j < k) (hsl : arrays[j]? = some slot) :
    t.Meets l.dst fun d => ∀ r ∈ slot.reads, d.ReadsElement l (values.length + j) r := by
  induction h with
  | declared _ _ => exact absurd hj (Nat.not_lt_zero _)
  | @step k k' t u hw hst ih =>
    have hed := hs.edits hw
    by_cases ho : values.length + j < k
    · refine (ih ho).edits_reads (hs.edits_step hw hst) fun r hr ⟨_, f, hf, hre⟩ => ?_
      exact hs.not_readsAt (.inr ⟨j, slot, rfl, hsl, r, hr, rfl⟩) (Nat.lt_of_lt_of_le ho hf.1) hre
    cases hst with
    | global _ _ _ => exact absurd hj ho
    | value hn _ _ _ _ _ =>
      have hlt := (List.getElem?_eq_some_iff.mp hn).1
      omega
    | @array i new stored loaded g d e hn hd _ _ he hl =>
      obtain rfl : j = i := by omega
      obtain rfl := Option.mem_unique hn hsl
      obtain ⟨hm, -, hds, -⟩ := hs.copied new (List.mem_of_getElem? hn)
      have he' : t.drafts[l.dst.val]? = some e := by
        rwa [getElem?_setDraft_ne fun hv => hs.ne (Fin.ext hv.symm)] at he
      refine meets_setDraft_self he fun r hr => Draft.readsElement_patchReads
        (hs.distinct new (List.mem_of_getElem? hn)) ((hs.confined hw _ e he').getElem? hl) hr ?_
      exact hed.rooted.loads _ _ (.inr ⟨new, hed.arrays ▸ hm, congrArg Fin.val hds, r, hr, rfl⟩)
        e he'

end Wirable

end Emission

end Stagewise
