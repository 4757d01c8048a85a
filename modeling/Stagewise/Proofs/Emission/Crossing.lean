import Stagewise.Proofs.Emission.FanOut

namespace Stagewise

theorem exists_split_flatMap {α β : Type} {f : α → List β} (hf : ∀ a, (f a).length ≤ 1)
    {l : List α} {before after : List β} {b : β} (h : l.flatMap f = before ++ b :: after) :
    ∃ l1 a l2, l = l1 ++ a :: l2 ∧ l1.flatMap f = before ∧ f a = [b] := by
  induction l generalizing before with
  | nil => simp at h
  | cons a rest ih =>
    rw [List.flatMap_cons] at h
    have ho := hf a
    match hfa : f a, before with
    | [], _ =>
      rw [hfa, List.nil_append] at h
      obtain ⟨l1, a', l2, rfl, hl1, ha'⟩ := ih h
      exact ⟨a :: l1, a', l2, rfl, by rw [List.flatMap_cons, hfa, hl1, List.nil_append], ha'⟩
    | [c], [] =>
      rw [hfa] at h
      obtain ⟨rfl, -⟩ := List.cons.inj h
      exact ⟨[], a, rest, rfl, rfl, hfa⟩
    | [c], _ :: before =>
      rw [hfa] at h
      obtain ⟨rfl, ht⟩ := List.cons.inj h
      obtain ⟨l1, a', l2, rfl, hl1, ha'⟩ := ih ht
      exact ⟨a :: l1, a', l2, rfl, by rw [List.flatMap_cons, hfa, hl1, List.singleton_append], ha'⟩
    | c :: c' :: _, _ => simp [hfa] at ho

theorem Deed.length_moves_le (x : Scope) (deed : Deed) : (deed.moves x).length ≤ 1 := by
  cases deed <;> simp only [moves] <;> (try split) <;> simp

theorem Event.length_moves_le (src : Source) (x : Scope) (e : Event) :
    (e.moves src x).length ≤ 1 := by
  unfold moves
  split
  · split <;> simp
  · simp
  · simp

def Move.left? : Move → Option BlockId
  | .exit block => some block
  | _ => none

def Event.left? : Event → Option BlockId
  | .join pred _ => pred
  | _ => none

theorem Event.left_moves (src : Source) (x : Scope) (e : Event) :
    (moves src x e).filterMap Move.left? = e.left?.toList := by
  cases e with
  | inst pred i =>
    by_cases hi : src.table.instScope i = some x <;> simp [moves, left?, Move.left?, hi]
  | join pred b => cases pred <;> rfl
  | branch _ | ret _ | loop _ => rfl

namespace Source

variable {src : Source} {types : TypePool} {x owner : Scope} {left : List BlockId}

theorem resolved_congr {left' : List BlockId} (h : ∀ b, b ∈ left ↔ b ∈ left')
    (pred : Option BlockId) (op : Operation) :
    src.resolved types x left pred op = src.resolved types x left' pred op := by
  have hc : ∀ b, left.contains b = left'.contains b := fun b => by
    rw [Bool.eq_iff_iff, List.contains_iff_mem, List.contains_iff_mem, h]
  unfold resolved
  simp only [hc]

/-- What a move for a scope asks an earlier one for: an operand, a load that is done where its binding
belongs, or the condition of a branch. -/
inductive Asks (src : Source) (types : TypePool) (x : Scope) (left : List BlockId) :
    Move → Scope → InstId → Prop
  | operand {pred : Option BlockId} {i j : InstId} {inst : Inst} {owner : Scope} :
      src.func.insts[j]? = some inst → .inst i ∈ src.resolved types x left pred inst.op →
      src.table.instScope i = some owner → Asks src types x left (.visit pred j) owner i
  | raised {pred : Option BlockId} {i : InstId} {inst : Inst} {owner : Scope} {g : GlobalId}
      {path : List Nat} : src.table.instScope i = some x → src.func.insts[i]? = some inst →
      inst.op = .load (.member g path) → src.table.globalScope g = some owner →
      Asks src types x left (.visit pred i) owner i
  | condition {site : BranchSite} {i : InstId} {owner : Scope} : site.cond = .inst i →
      src.table.instScope i = some owner → Asks src types x left (.fork site) owner i

end Source

theorem Draft.Takes.not_asks {src : Source} {types : TypePool} {x owner : Scope} {i : InstId}
    {left : List BlockId} {d d' : Draft} {forks after : List Fork} {m : Move}
    (h : d.Takes forks m d' after) : ¬src.Asks types x left m owner i := by
  intro ha
  cases ha <;> cases h

namespace Emission

variable {src : Source} {allowed : Permit} {s t u : Emission} {scope x owner : Scope} {i : InstId}

def Gains (kind : Scope → Scope → InstId → Prop) (s t : Emission) : Prop :=
  ∃ new, t.ledger.values = s.ledger.values ++ new ∧
    ∀ slot ∈ new, slot.src < slot.dst ∧ kind slot.src slot.dst slot.source

section Gains

variable {kind kind' : Scope → Scope → InstId → Prop}

theorem gains_of_values_eq (h : t.ledger.values = s.ledger.values) : Gains kind s t :=
  ⟨[], by rw [h, List.append_nil], by simp⟩

theorem Gains.trans (h : Gains kind s t) (h' : Gains kind t u) : Gains kind s u := by
  obtain ⟨new, hv, hn⟩ := h
  obtain ⟨new', hv', hn'⟩ := h'
  refine ⟨new ++ new', by rw [hv', hv, List.append_assoc], fun slot hs => ?_⟩
  exact (List.mem_append.mp hs).elim (hn slot) (hn' slot)

theorem Gains.mono (h : Gains kind s t) (hk : ∀ owner x i, kind owner x i → kind' owner x i) :
    Gains kind' s t := by
  obtain ⟨new, hv, hn⟩ := h
  exact ⟨new, hv, fun slot hs => (hn slot hs).imp_right (hk _ _ _)⟩

end Gains

theorem ReadStep.gains (h : ReadStep src allowed s t) : Gains allowed.reads s t := by
  cases h with
  | report _ | declareGlobal _ _ _ | declare _ _ => exact gains_of_values_eq rfl
  | openRead _ _ _ hlt hr => exact ⟨[_], rfl, by simpa using ⟨hlt, hr⟩⟩

theorem Reads.gains (h : Reads src allowed s t) : Gains allowed.reads s t := by
  induction h with
  | refl => exact gains_of_values_eq rfl
  | tail _ hs ih => exact ih.trans hs.gains

def HasRead (s : Emission) (x : Scope) (i : InstId) : Prop :=
  ∃ d v, s.drafts[x.val]? = some d ∧ d.reads.lookup i = some v

theorem Denotes.hasRead {r : Value} (h : Denotes src s x (.inst i) r)
    (ho : src.table.instScope i = some owner) (hlt : owner < x) : s.HasRead x i := by
  cases h with
  | copy how _ _ => exact absurd hlt (Option.mem_unique ho how ▸ lt_irrefl _)
  | read _ _ hd hv => exact ⟨_, _, hd, hv⟩
  | undefined hn _ _ => rw [hn] at ho; cases ho
  | backward how hb _ _ =>
    obtain rfl := Option.mem_unique ho how
    exact absurd hlt (lt_asymm hb)

theorem HasRead.setDraft {d d' : Draft} (h : s.HasRead scope i) (hd : s.drafts[scope.val]? = some d)
    (hr : d'.reads = d.reads) : (s.setDraft scope d').HasRead scope i := by
  obtain ⟨e, v, he, hv⟩ := h
  obtain rfl := Option.mem_unique hd he
  exact ⟨d', v, getElem?_setDraft_self hd, hr ▸ hv⟩

section Copied

variable {pred : Option BlockId} {j : InstId} {inst : Inst}

section

variable (h : Copied src allowed scope pred j inst s t)
include h

theorem Copied.gains : Gains allowed.reads s t := by
  cases h with
  | emitted hr _ _ _ _ | known _ _ _ hr _ _ | missing _ _ _ hr _ _
  | unsupported _ _ hr _ _ | array _ _ _ _ _ _ hr _ _ | skipped _ hr =>
    exact hr.gains
  | raised _ _ _ hr _ _ hr' _ _ => exact hr.gains.trans hr'.gains

theorem Copied.hasRead (hi : .inst i ∈ src.asked s scope pred inst)
    (ho : src.table.instScope i = some owner) (hlt : owner < scope) : t.HasRead scope i := by
  cases h with
  | emitted hre hd hop hp _ =>
    obtain ⟨r, hr⟩ := hop.denotes hp (Source.asked_keeps hre.keeps pred inst ▸ hi)
    exact (hr.hasRead ho hlt).setDraft hd rfl
  | known hop hq hv _ hr hd =>
    simp only [Source.asked, Source.resolved, hop, hq, hv, Option.mem_toList,
      Option.some.injEq] at hi
    exact ((hi ▸ hr : Denotes src _ scope (.inst i) _).hasRead ho hlt).setDraft hd rfl
  | missing hop hq hv _ _ _ => simp [Source.asked, Source.resolved, hop, hq, hv] at hi
  | unsupported _ hn _ _ _ =>
    rw [hn.2] at hi
    cases hi
  | raised hop _ _ _ _ _ _ _ _ =>
    rw [Source.asked, hop] at hi
    cases hi
  | array hop _ _ hin _ _ _ hr hd =>
    obtain ⟨hm, -⟩ := Source.mem_resolved hi
    rw [hop, Operation.operands, Address.indexValues, Address.steps, hin, List.mem_singleton] at hm
    exact ((hm ▸ hr : Denotes src _ scope (.inst i) _).hasRead ho hlt).setDraft hd rfl
  | skipped hs _ =>
    rcases hs with ⟨v, args, hop⟩ | ⟨v, hop, r, hr⟩
    · exact absurd hop ((Source.mem_resolved hi).2.1 v args)
    · obtain ⟨hm, -⟩ := Source.mem_resolved hi
      rw [hop] at hm
      obtain hm := List.mem_singleton.mp hm
      exact (hm ▸ hr : Denotes src _ scope (.inst i) _).hasRead ho hlt

theorem Copied.hasRead_raised {g : GlobalId} {path : List Nat}
    (hop : inst.op = .load (.member g path)) (hg : src.table.globalScope g = some owner)
    (hlt : owner < scope) : t.HasRead scope j := by
  cases h with
  | emitted _ _ _ _ hs => exact absurd hlt (hs _ g owner hop rfl hg)
  | known hop' _ _ _ _ _ | missing hop' _ _ _ _ _ | array hop' _ _ _ _ _ _ _ _ =>
    exact absurd (hop.symm.trans hop') (by simp)
  | unsupported hop' ha _ _ _ =>
    exact absurd (Operation.load.inj (hop'.symm.trans hop)) (ha.1 g path)
  | raised _ _ _ _ _ _ _ hd hr => exact HasRead.setDraft ⟨_, _, hd, hr⟩ hd rfl
  | skipped hsk _ =>
    rcases hsk with ⟨v, args, hop'⟩ | ⟨v, hop', -⟩ <;> exact absurd (hop.symm.trans hop') (by simp)

end

end Copied

variable {s t : Stage} {deeds : List Deed}

theorem Does.gains {deed : Deed} (h : Does src deed s t) :
    Gains (fun owner x i => ∃ m, deed = .move x m ∧
      src.Asks s.state.types x (s.state.left x) m owner i) s.state t.state := by
  cases h with
  | visit hs hin hd hc =>
    refine Gains.mono (Gains.trans (gains_of_values_eq rfl) hc.gains) ?_
    rintro owner x i ⟨rfl, ⟨hi, ho⟩ | ⟨rfl, g, path, hop, hg⟩⟩
    · exact ⟨_, rfl, .operand hin hi ho⟩
    · exact ⟨_, rfl, .raised hs hin hop hg⟩
  | fork hr _ _ =>
    refine Gains.mono hr.gains ?_
    rintro owner x i ⟨rfl, hco, ho⟩
    exact ⟨_, rfl, .condition hco ho⟩
  | steer _ _ | note _ | loop _ => exact gains_of_values_eq rfl

theorem Does.hasRead {m : Move} (h : Does src (.move x m) s t)
    (ha : src.Asks s.state.types x (s.state.left x) m owner i) (hlt : owner < x) :
    t.state.HasRead x i := by
  cases h with
  | visit _ hin hd hc =>
    cases ha with
    | operand hi' hi ho =>
      obtain rfl := Option.mem_unique hin hi'
      refine hc.hasRead ?_ ho hlt
      rwa [Source.asked_keeps (keeps_setDraft hd (Source.Draft.keeps_noteVisit ..))]
    | raised _ hi' hop hg =>
      obtain rfl := Option.mem_unique hin hi'
      exact hc.hasRead_raised hop hg hlt
  | @fork _ _ _ _ site cond d _ hde hd =>
    cases ha with
    | condition hco ho =>
      rw [hco] at hde
      exact (hde.hasRead ho hlt).setDraft hd (d.sameCode_openFork site cond).reads
  | steer _ ht => exact (ht.not_asks ha).elim

theorem Run.values_subset (h : Run src deeds s t) :
    s.state.ledger.values ⊆ t.state.ledger.values := by
  induction h with
  | nil => exact List.Subset.refl _
  | cons hdo _ ih =>
    obtain ⟨new, hv, -⟩ := hdo.gains
    exact List.Subset.trans (hv ▸ List.subset_append_left ..) ih

theorem Run.mem_left (h : Run src deeds s t)
    (hs : (s.state.log x).left = []) {b : BlockId} :
    b ∈ t.state.left x ↔ b ∈ (deeds.flatMap (Deed.moves x)).filterMap Move.left? := by
  rw [left_eq, h.log, Log.mem_left_foldl, hs]
  simp only [List.not_mem_nil, false_or, List.mem_filterMap]
  constructor
  · exact fun hb => ⟨_, hb, rfl⟩
  · rintro ⟨m, hm, hb⟩
    cases m with
    | exit block =>
      obtain rfl := Option.some.inj hb
      exact hm
    | _ => cases hb

theorem Run.asks (h : Run src deeds s t) {slot : ValueSlot}
    (hs : slot ∈ t.state.ledger.values) : slot ∈ s.state.ledger.values ∨ slot.src < slot.dst ∧
      ∃ before m after u, deeds = before ++ .move slot.dst m :: after ∧ Run src before s u ∧
        src.Asks u.state.types slot.dst (u.state.left slot.dst) m slot.src slot.source := by
  induction h with
  | nil => exact .inl hs
  | @cons deed deeds s t u hdo hr ih =>
    rcases ih hs with hs | ⟨hlt, before, m, after, w, rfl, hb, ha⟩
    · obtain ⟨new, hv, hn⟩ := hdo.gains
      rw [hv] at hs
      refine (List.mem_append.mp hs).imp_right fun hs => ?_
      obtain ⟨hlt, m, rfl, ha⟩ := hn slot hs
      exact ⟨hlt, [], m, deeds, s, rfl, .nil s, ha⟩
    · exact .inr ⟨hlt, deed :: before, m, after, w, rfl, .cons hdo hb, ha⟩

theorem Run.slot_of_asks {before after : List Deed} {m : Move} {u : Stage}
    (h : Run src before s u) (h' : Run src (.move x m :: after) u t) (hp : s.state.Posted src)
    (ha : src.Asks u.state.types x (u.state.left x) m owner i) (hlt : owner < x) :
    ∃ slot ∈ t.state.ledger.values, slot.dst = x ∧ slot.source = i := by
  cases h' with
  | cons hdo hr =>
    obtain ⟨d, v, hd, hv⟩ := hdo.hasRead ha hlt
    have hc : Copying src _ _ := h.copying.trans hdo.copying
    obtain ⟨slot, hs, heq⟩ := (hc.posted hp).asked x d i v hd hv
    exact ⟨slot, hr.values_subset hs, heq⟩

end Emission

namespace Source

open Emission

variable {src : Source} {tree : PostDominators} {types : TypePool} {scopes : List String}
  {x owner : Scope} {i : InstId} {t u : Emission}

def Crossed (src : Source) (types : TypePool) (moves : List Move) (owner x : Scope)
    (i : InstId) : Prop :=
  ∃ before m after, moves = before ++ m :: after ∧
    src.Asks types x (before.filterMap Move.left?) m owner i

variable {left : List BlockId} {m : Move} {left' : List BlockId}

section

variable (h : src.Asks types x left m owner i)
include h

theorem Asks.congr (hl : ∀ b, b ∈ left ↔ b ∈ left') : src.Asks types x left' m owner i := by
  cases h with
  | operand hin hi ho => exact .operand hin (resolved_congr hl .. ▸ hi) ho
  | raised hs hin hop hg => exact .raised hs hin hop hg
  | condition hc ho => exact .condition hc ho

theorem Asks.owner_eq {m' : Move} {owner' : Scope} (h' : src.Asks types x left' m' owner' i)
    (hlt : owner < x) (hlt' : owner' < x) : owner = owner' := by
  have hl : ∀ {y}, src.table.instScope i = some y → src.table.instScope i = some x → ¬y < x :=
    fun hy hx => Option.mem_unique hy hx ▸ lt_irrefl _
  cases h with
  | operand _ _ ho | condition _ ho =>
    cases h' with
    | operand _ _ ho' | condition _ ho' => exact Option.mem_unique ho ho'
    | raised hs _ _ _ => exact absurd hlt (hl ho hs)
  | raised hs hi hop hg =>
    cases h' with
    | operand _ _ ho' | condition _ ho' => exact absurd hlt' (hl ho' hs)
    | raised _ hi' hop' hg' =>
      obtain rfl := Option.mem_unique hi hi'
      obtain ⟨rfl, -⟩ := Address.member.inj (Operation.load.inj (hop.symm.trans hop'))
      exact Option.mem_unique hg hg'

theorem Asks.deed_eq {deed : Deed} (hd : deed.moves x = [m]) : deed = .move x m := by
  unfold Deed.moves at hd
  split at hd
  · split at hd
    · next hx =>
      obtain ⟨rfl, -⟩ := List.cons.inj hd
      rw [hx]
    · cases hd
  · split at hd
    · obtain ⟨rfl, -⟩ := List.cons.inj hd
      cases h
    · cases hd
  · cases hd

end

/-- A result has a slot just if one of the moves of a later scope asks for it. -/
theorem slot_iff_crossed
    (hru : (src.copyAll tree).run (Emission.start src types scopes) = (.ok (), u)) :
    (∃ slot ∈ u.ledger.values, slot.src = owner ∧ slot.dst = x ∧ slot.source = i) ↔
      owner < x ∧ src.Crossed types (src.moves tree scopes.length x) owner x i := by
  obtain ⟨-, deeds, hmo, hlo⟩ := (sat_copyAll_run tree _).of_run hru
  rw [size_start] at hlo
  have ha : ∀ {before : List Deed} {t : Stage} {x owner : Scope} {i : InstId} {m : Move},
      Emission.Run src before ⟨Emission.start src types scopes, fun _ => []⟩ t →
      (src.Asks t.state.types x (t.state.left x) m owner i ↔ src.Asks types x
        ((before.flatMap (Deed.moves x)).filterMap Move.left?) m owner i) := by
    intro before t x owner i m hb
    have ht : t.state.types = types := hb.copying.sameRecords.1
    have hl := fun b => hb.mem_left (b := b) (congrArg Log.left (log_start types scopes x))
    rw [ht]
    exact ⟨fun h => h.congr hl, fun h => h.congr fun b => (hl b).symm⟩
  have ho : ∀ slot ∈ u.ledger.values, slot.src < slot.dst ∧
      src.Crossed types (src.moves tree scopes.length slot.dst) slot.src slot.dst slot.source := by
    intro slot hs
    rcases hmo.asks hs with hol | ⟨hlt, before, m, after, t, rfl, hb, hm⟩
    · cases hol
    · refine ⟨hlt, _, m, after.flatMap (Deed.moves slot.dst), ?_, (ha hb).mp hm⟩
      simp [← hlo, Deed.moves]
  constructor
  · rintro ⟨slot, hs, rfl, rfl, rfl⟩
    exact ho slot hs
  · rintro ⟨hlt, before, m, after, hsp, hm⟩
    obtain ⟨first, deed, rest, rfl, rfl, hd⟩ :=
      exists_split_flatMap (Deed.length_moves_le x) ((hlo x).trans hsp)
    obtain rfl := hm.deed_eq hd
    obtain ⟨t, hf, hr⟩ := hmo.split
    obtain ⟨slot, hs, rfl, rfl⟩ :=
      hf.slot_of_asks hr (posted_start src types scopes) ((ha hf).mpr hm) hlt
    refine ⟨slot, hs, ?_, rfl, rfl⟩
    obtain ⟨hlt', before', m', -, -, hm'⟩ := ho slot hs
    exact hm'.owner_eq hm hlt' hlt

/-- The results that cross to a scope from an earlier one, when the plain walk of a function has some
events and its branches are fanned out as noted. An operand is one that copying looks at: of the
values of a phi, the one of the block before it, or those of the blocks that control has left. -/
inductive Crosses (src : Source) (types : TypePool) (events : List Event) (fanout : List FanOut)
    (owner x : Scope) (i : InstId) : Prop
  | operand {before after : List Event} {pred : Option BlockId} {j : InstId} {inst : Inst} :
      events = before ++ .inst pred j :: after → src.table.instScope j = some x →
      src.func.insts[j]? = some inst →
      .inst i ∈ src.resolved types x (before.filterMap Event.left?) pred inst.op →
      src.table.instScope i = some owner → Crosses src types events fanout owner x i
  | condition {e : FanOut} {ifTrue ifFalse : BlockId} : e ∈ fanout → e.scopes.contains x = true →
      src.func.terminator? e.block = some (.branch (.inst i) ifTrue ifFalse) →
      src.table.instScope i = some owner → Crosses src types events fanout owner x i
  | raised {pred : Option BlockId} {inst : Inst} {g : GlobalId} {path : List Nat} :
      .inst pred i ∈ events → src.table.instScope i = some x → src.func.insts[i]? = some inst →
      inst.op = .load (.member g path) → src.table.globalScope g = some owner →
      Crosses src types events fanout owner x i

section Walk

variable {it : Itinerary}

theorem filterMap_left_filter (moves : List Move) :
    (moves.filter Move.isWork).filterMap Move.left? = moves.filterMap Move.left? := by
  rw [List.filterMap_filter]
  refine List.filterMap_congr fun m _ => ?_
  cases m <;> rfl

/-- What comes before an instruction on the plain walk is what comes before it among the moves, as
far as the blocks that control leaves are concerned. -/
theorem visit_split_iff {faithful : Bool} {pred pred' : Option BlockId} {j : InstId}
    {P : List BlockId → Prop} :
    (∃ before after, it.moves src x faithful pred' = before ++ .visit pred j :: after ∧
      P (before.filterMap Move.left?)) ↔
    src.table.instScope j = some x ∧ ∃ before after,
      it.events src.func pred' = before ++ .inst pred j :: after ∧
        P (before.filterMap Event.left?) := by
  have hw := Itinerary.filter_moves src x it faithful pred'
  constructor
  · rintro ⟨before, after, hs, hP⟩
    rw [hs, List.filter_append, List.filter_cons_of_pos rfl] at hw
    obtain ⟨first, e, rest, hev, hf, he⟩ :=
      exists_split_flatMap (Event.length_moves_le src x) hw.symm
    rw [← filterMap_left_filter, ← hf, Event.filterMap_moves (Event.left_moves src x)] at hP
    match e with
    | .inst pred'' j' =>
      simp only [Event.moves] at he
      split at he
      · next hj =>
        obtain ⟨rfl, rfl⟩ := Move.visit.inj (List.cons.inj he).1
        exact ⟨hj, first, rest, hev, hP⟩
      · cases he
    | .join none _ | .branch _ | .ret _ | .loop _ => cases he
    | .join (some q) _ => cases he
  · rintro ⟨hj, before, after, hev, hP⟩
    rw [hev, List.flatMap_append, List.flatMap_cons, Event.moves, if_pos hj,
      List.singleton_append] at hw
    obtain ⟨first, rest, hm, hf, hr⟩ := List.filter_eq_append_iff.mp hw
    obtain ⟨gap, rest, rfl, hg, -, -⟩ := List.filter_eq_cons_iff.mp hr
    refine ⟨first ++ gap, rest, by rw [hm, List.append_assoc], ?_⟩
    have hn : gap.filter Move.isWork = [] := List.filter_eq_nil_iff.mpr hg
    rwa [← filterMap_left_filter, List.filter_append, hn, List.append_nil, hf,
      Event.filterMap_moves (Event.left_moves src x)]

/-- The moves that ask for a result can be told from the trace and the copied branches. -/
theorem crossed_iff_crosses {fanout : List FanOut}
    (hsit : ∀ site ∈ it.sites, src.func.terminator? site.block
      = some (.branch site.cond site.ifTrue site.ifFalse))
    (hf : ∀ b, FanOut.Lists fanout b x ↔ src.Wants it b x) :
    src.Crossed types (it.moves src x true none) owner x i ↔
      src.Crosses types (it.events src.func none) fanout owner x i := by
  constructor
  · rintro ⟨before, m, after, hs, ha⟩
    cases ha with
    | @operand pred _ _ inst _ hin hi ho =>
      obtain ⟨hj, first, rest, hev, hi⟩ :=
        (visit_split_iff (P := fun left => .inst i ∈ src.resolved types x left pred inst.op)).mp
          ⟨before, after, hs, hi⟩
      exact .operand hev hj hin hi ho
    | raised hsc hin hop hg =>
      obtain ⟨-, first, rest, hev, -⟩ :=
        (visit_split_iff (P := fun _ => True)).mp ⟨before, after, hs, trivial⟩
      exact .raised (hev ▸ List.mem_append_right _ List.mem_cons_self) hsc hin hop hg
    | @condition site _ _ hco ho =>
      obtain ⟨hsi, hw⟩ := mem_moves_fork.mp
        (hs ▸ List.mem_append_right _ List.mem_cons_self : .fork site ∈ it.moves src x true none)
      obtain ⟨e, he, hb, hx⟩ := (hf site.block).mpr ⟨site, hsi, rfl, hw⟩
      exact .condition he hx (hco ▸ hb ▸ hsit site hsi) ho
  · intro hc
    cases hc with
    | @operand before after pred j inst hev hj hin hi ho =>
      obtain ⟨before, after, hs, hi⟩ :=
        (visit_split_iff (P := fun left => .inst i ∈ src.resolved types x left pred inst.op)).mpr
          ⟨hj, before, after, hev, hi⟩
      exact ⟨before, _, after, hs, .operand hin hi ho⟩
    | raised hm hsc hin hop hg =>
      obtain ⟨before, after, hev⟩ := List.append_of_mem hm
      obtain ⟨before, after, hs, -⟩ := (visit_split_iff (P := fun _ => True)).mpr
        ⟨hsc, before, after, hev, trivial⟩
      exact ⟨before, _, after, hs, .raised hsc hin hop hg⟩
    | @condition e ifTrue ifFalse he hx ht ho =>
      obtain ⟨site, hsi, hb, hw⟩ := (hf e.block).mp ⟨e, he, rfl, hx⟩
      obtain ⟨before, after, hs⟩ := List.append_of_mem
        (mem_moves_fork.mpr ⟨hsi, hw⟩ : .fork site ∈ it.moves src x true none)
      refine ⟨before, _, after, hs, .condition ?_ ho⟩
      have hbr := hsit site hsi
      rw [hb, ht, Option.some.injEq] at hbr
      exact (Terminator.branch.inj hbr).1.symm

end Walk

theorem LayingOut.forward {s : Emission} {key : RecordKey} {name : String}
    {o : Option TransferLayout} (h : LayingOut src key name s o t)
    (hv : ∀ slot ∈ s.ledger.values, slot.src < slot.dst)
    (ha : ∀ slot ∈ s.ledger.arrays, slot.src < slot.dst) : ∀ l ∈ o, l.src < l.dst := by
  cases h with
  | empty _ _ => simp
  | @wired l _ _ hsl hl _ =>
    have hk : l.key = key := hl.key
    rintro _ ⟨⟩
    show l.key.src < l.key.dst
    rw [hk]
    by_cases hn : s.ledger.valuesOf s.types key = []
    · obtain ⟨slot, hs⟩ := List.exists_mem_of_ne_nil _ fun h => hsl ⟨hn, h⟩
      obtain ⟨hm, hof⟩ := List.mem_filter.mp hs
      exact (beq_iff_eq.mp hof) ▸ ha slot hm
    · obtain ⟨slot, hs⟩ := List.exists_mem_of_ne_nil _ hn
      obtain ⟨hm, hof⟩ := List.mem_filter.mp hs
      exact (beq_iff_eq.mp hof) ▸ hv slot hm

theorem sat_layOutAll_forward {s : Emission} (hp : s.Posted src)
    (records : List (RecordKey × String)) :
    Act.Sat Act.Any (src.layOutAll records) s fun layouts t =>
      s.Lays t ∧ ∀ l ∈ layouts, l.src < l.dst := by
  let P : List (RecordKey × String) → List TransferLayout → Emission → Prop := fun _ layouts t =>
    s.Lays t ∧ ∀ l ∈ layouts, l.src < l.dst
  have hn : P [] [] s := ⟨.refl, by simp⟩
  refine sat_layOutAll_of_step (P := P) (fun _ layouts t r ht => ?_) [] hn records
  obtain ⟨hla, hal⟩ := ht
  refine ((sat_layOut_lays r.2).and (sat_layOut_layingOut r.1 r.2 t)).mono ?_
  rintro o u ⟨hl', hlay⟩
  refine ⟨hla.trans hl', fun l hl => (List.mem_append.mp hl).elim (hal l) fun hl => ?_⟩
  obtain ⟨hv, ha⟩ := hla.slots
  refine LayingOut.forward hlay ?_ ?_ l (Option.mem_toList.mp hl)
  · exact hv ▸ fun slot hs => (hp.slots slot hs).1
  · exact ha ▸ fun slot hs => (hp.arrays slot hs).1

/-- Only what is asked for crosses, and it does so forward. When a function is copied and its records
are laid out, a result has a slot from one scope to a later one just when something of the plain walk
that is copied into the later scope asks for it there; copying reaches no scope above the limit. No
result has two slots to one scope, and every record is from a scope to a later one. -/
theorem transfers_minimal {records : List (RecordKey × String)} {layouts : List TransferLayout}
    (hrun : (do src.copyAll tree; src.layOutAll records : Act Emission _).run
      (Emission.start src types scopes) = (.ok layouts, u)) :
    ∃ events, Route.trace ⟨src.func, tree⟩ 1 none none src.func.entry none = (.ok (), events) ∧
      (∀ owner x i, (∃ slot ∈ u.ledger.values, slot.src = owner ∧ slot.dst = x ∧ slot.source = i) ↔
        owner < x ∧ x.val < min scopes.length Scope.limit ∧
          src.Crosses types events u.fanout owner x i) ∧
      (u.ledger.values.Pairwise fun a b => ¬(a.dst = b.dst ∧ a.source = b.source)) ∧
      ∀ l ∈ layouts, l.src < l.dst := by
  have hsteps : Act.Sat Act.Any (do src.copyAll tree; src.layOutAll records)
      (Emission.start src types scopes) fun layouts u => ∃ t,
        (src.copyAll tree).run (Emission.start src types scopes) = (.ok (), t) ∧ t.Posted src ∧
          t.Lays u ∧ ∀ l ∈ layouts, l.src < l.dst := by
    rw [Act.sat_bind, Act.sat_any_iff]
    intro _ t hcopy
    have hposted := ((sat_copyAll_copying tree _).of_run hcopy).posted (posted_start src types scopes)
    exact (sat_layOutAll_forward hposted records).mono fun _ _ h => ⟨t, hcopy, hposted, h⟩
  obtain ⟨t, hcopy, hposted, hlays, hforward⟩ := hsteps.of_run hrun
  have hfanned := (sat_copyAll_fanned tree types scopes).of_run hcopy
  have hsites : ∀ site ∈ (Route.itinerary ⟨src.func, tree⟩).sites, src.func.terminator? site.block
      = some (.branch site.cond site.ifTrue site.ifFalse) := fun site hsite =>
    ((Route.follows_of_found hfanned.found).site_eq hsite).1
  rw [hlays.slots.1, hlays.fanout]
  refine ⟨(Route.itinerary ⟨src.func, tree⟩).events src.func none, ?_, fun owner x i => ?_, ?_, hforward⟩
  · show (Route.walk _ _ _ _ (Route.mk src.func tree).func.entry _).run [] = _
    rw [Route.walk_eq_walk]
    exact Itinerary.records_walk hfanned.found none []
  · rw [slot_iff_crossed hcopy, moves]
    by_cases hx : (ScopeSet.first scopes.length).contains x = true
    · have hfanout : ∀ b, FanOut.Lists t.fanout b x ↔ _ := fun b =>
        (hfanned.noted b x).trans (and_iff_right hx)
      rw [if_pos hx, crossed_iff_crosses hsites hfanout,
        and_iff_right (ScopeSet.contains_first_iff.mp hx)]
    · have hout := mt ScopeSet.contains_first_iff.mpr hx
      simp only [if_neg hx, hout, false_and, and_false, iff_false]
      simp [Crossed]
  · exact hposted.apart.imp fun hab h => (hab h.1).1 h.2

end Source

theorem transfers_shortCircuit : ∃ layouts u,
    (do shortCircuitSource.copyAll shortCircuitTree
        shortCircuitSource.layOutAll [(⟨0, 1, false⟩, "early_to_late")] : Act Emission _).run
      (Emission.start shortCircuitSource .empty ["early", "late"]) = (.ok layouts, u) ∧
    ∃ events, Route.trace ⟨shortCircuit, shortCircuitTree⟩ 1 none none 0 none = (.ok (), events) ∧
      (∀ owner x i, (∃ slot ∈ u.ledger.values, slot.src = owner ∧ slot.dst = x ∧ slot.source = i) ↔
        owner < x ∧ x.val < 2 ∧ shortCircuitSource.Crosses .empty events u.fanout owner x i) ∧
      (u.ledger.values.Pairwise fun a b => ¬(a.dst = b.dst ∧ a.source = b.source)) ∧
      ∀ l ∈ layouts, l.src < l.dst := by
  have hok : ((do shortCircuitSource.copyAll shortCircuitTree
                  shortCircuitSource.layOutAll [(⟨0, 1, false⟩, "early_to_late")] :
      Act Emission _).run (Emission.start shortCircuitSource .empty ["early", "late"])).1.isOk = true := by
    decide +kernel
  obtain ⟨layouts, hrun⟩ := Act.exists_run_of_isOk hok
  exact ⟨layouts, _, hrun, Source.transfers_minimal hrun⟩

end Stagewise
