import Stagewise.Proofs.Emission.Availability
import Stagewise.Proofs.Emission.Moves

namespace Stagewise

/-- A move that is not noted. -/
def Move.isSilent : Move → Bool
  | .visit _ _ | .exit _ | .fork _ => false
  | _ => true

namespace Log

variable {src : Source} {x : Scope} {visited visited' : List BlockId} {log : Log} {m : Move}

def Made (log : Log) (i : InstId) : Prop := ∃ pred, (pred, i) ∈ log.visits

/-- The moves so far went through some blocks for a scope, and control left no other blocks. -/
structure Visited (src : Source) (x : Scope) (visited : List BlockId) (log : Log) : Prop where
  made : ∀ b ∈ visited, ∀ i ∈ src.func.instsOf b, src.table.instScope i = some x → log.Made i
  left : ∀ b ∈ log.left, b ∈ visited

theorem made_foldl (moves : List Move) {i : InstId} :
    (moves.foldl add log).Made i ↔ log.Made i ∨ ∃ pred, .visit pred i ∈ moves := by
  induction moves generalizing log with
  | nil => simp
  | cons m rest ih =>
    rw [List.foldl_cons, ih]
    cases m <;> simp [add, Made, exists_or, or_assoc, or_left_comm]

theorem Visited.congr (h : log.Visited src x visited) (he : ∀ b, b ∈ visited ↔ b ∈ visited') :
    log.Visited src x visited' :=
  ⟨fun b hb => h.made b ((he b).mpr hb), fun b hb => (he b).mp (h.left b hb)⟩

end Log

namespace Source

open Emission

variable {src : Source} {n : Nat} {blocks visited visited' visited'' : List BlockId}
  {s t : Emission} {x : Scope} {v : Value} {b : BlockId} {i : InstId} {log : Log}

/-- An operand that a scope can have: it is made in some block, and if it belongs to the scope, it was
made before. -/
structure Available (src : Source) (blocks : List BlockId) (x : Scope) (log : Log) (v : Value) :
    Prop where
  inRange : v.InRange src.program src.func
  stands : ∀ j, v = .inst j → src.StandsIn blocks j
  made : ∀ j, v = .inst j → src.table.instScope j = some x → log.Made j

/-- What a move for a scope needs of the moves before it. -/
def Needs (src : Source) (n : Nat) (blocks : List BlockId) (x : Scope) (log : Log) (m : Move) : Prop :=
  x.val < n ∧ match m with
    | .visit pred i => src.StandsIn blocks i ∧ ∀ inst types, src.func.insts[i]? = some inst →
        ∀ v ∈ src.resolved types x log.left pred inst.op, src.Available blocks x log v
    | .fork site => src.Available blocks x log site.cond
    | _ => True

end Source

namespace Emission

variable {src : Source} {n : Nat} {blocks : List BlockId} {s t : Emission} {x : Scope} {v : Value}
  {deed : Deed}

/-- What the moves of a scope have made is there. -/
def Stocked (src : Source) (s : Emission) : Prop :=
  ∀ x i, (s.log x).Made i → s.Has x i ∧ ∀ owner, src.RaisedTo owner i → s.Has owner i

theorem Sound.setDraft (h : s.Sound src n blocks) (x : Scope) (d : Draft) :
    (s.setDraft x d).Sound src n blocks :=
  ⟨by rw [size_setDraft, h.size], h.values, h.arrays⟩

theorem Stocked.ready (hsr : src.Classified n) (hs : s.Stocked src)
    (h : src.Available blocks x (s.log x) v) : src.Ready s x v := by
  cases v with
  | const c => trivial
  | global g => exact h.inRange
  | inst j => exact ⟨by rw [hsr.fits.insts]; exact h.inRange, h.inRange,
      fun hj => (hs x j (h.made j rfl hj)).1⟩

theorem promised_of_available (hsr : src.Classified n) {log : Log} {j : InstId} {owner : Scope}
    (h : src.Available blocks x log (.inst j)) (ho : src.table.instScope j = some owner) :
    src.Promised n blocks owner j :=
  ⟨hsr.within.scope_lt (.inst j) owner (Classification.usedScope_eq_some ho), h.stands j rfl, .inl ho⟩

theorem Does.grows {s t : Stage} (h : Does src deed s t) : s.state.Grows t.state := by
  have hsa : ∀ {s : Emission} {x : Scope} {d d' : Draft}, s.drafts[x.val]? = some d →
      d.SameCode d' → s.Grows (s.setDraft x d') :=
    fun hd hc => grows_setDraft hd fun i v hv => ⟨v, by rw [hc.copies, hv]⟩
  cases h with
  | @visit s _ _ x pred i _ d _ _ hd hc =>
    have hn : s.Grows (s.setDraft x (d.noteVisit pred i)) := grows_setDraft hd fun _ v hv => ⟨v, hv⟩
    exact hn.trans hc.grows
  | fork hr _ hd => exact hr.keeps.grows.trans (hsa hd (Draft.sameCode_openFork ..))
  | steer hd ht => exact hsa hd ht.sameCode
  | note _ | loop _ => exact ⟨rfl, fun _ _ h => h⟩

theorem Does.sound (hsr : src.Classified n) {s t : Stage} (h : Does src deed s t)
    (ha : ∀ x, (s.state.log x).Admits (src.Needs n blocks x) (deed.moves x))
    (hs : s.state.Sound src n blocks) : t.state.Sound src n blocks := by
  have hne : ∀ {x m}, deed = .move x m → src.Needs n blocks x (s.state.log x) m := by
    rintro x m rfl
    simpa [Deed.moves, Log.Admits] using ha x
  cases h with
  | @visit s _ _ x pred i inst _ hsc hi hd hc =>
    have hn := hne rfl
    refine (hc.mono ?_ fun _ _ => trivial).sound hsr (hs.setDraft x _)
    rintro owner dst j hlt ⟨rfl, ⟨hj, ho⟩ | ⟨rfl, g, path, hop, hg⟩⟩
    · rw [Source.asked, left_eq] at hj
      exact promised_of_available hsr (hn.2.2 inst _ hi _ hj) ho
    · exact ⟨hsr.within.scope_lt (.global g) owner (Classification.usedScope_eq_some hg),
        hn.2.1, .inr ⟨inst, g, path, dst, hi, hop, hg, hsc, hlt⟩⟩
  | @fork s _ _ x site _ _ hr _ _ =>
    refine Sound.setDraft (Reads.sound (hr.mono ?_ fun _ _ => trivial) hs) x _
    rintro owner dst j - ⟨rfl, hj, ho⟩
    have hc : src.Available blocks dst (s.log dst) site.cond := (hne rfl).2
    exact promised_of_available hsr (hj ▸ hc) ho
  | steer _ _ => exact hs.setDraft _ _
  | note _ | loop _ => exact ⟨hs.size, hs.values, hs.arrays⟩

theorem Does.stocked (hsr : src.Classified n) {s t : Stage} (h : Does src deed s t)
    (hs : s.state.Stocked src) : t.state.Stocked src := by
  intro x i hi
  rw [h.log, Log.made_foldl] at hi
  rcases hi with hi | ⟨pred, hi⟩
  · obtain ⟨hh, hr⟩ := hs x i hi
    exact ⟨h.grows.has x i hh, fun owner ho => h.grows.has owner i (hr owner ho)⟩
  · cases h with
    | @visit _ _ _ y pred' j inst _ hsc hin _ hc =>
      obtain ⟨rfl, -, rfl⟩ : y = x ∧ pred = pred' ∧ i = j := by
        simpa [Deed.moves, and_assoc] using hi
      refine ⟨hc.has (fun v args hop => ?_) (hsr.ssa.inRange i inst hin).known,
        fun owner ho => hc.has_raised hin hsc ho⟩
      have := hsr.within.indirect i inst v args hin hop
      rw [Classification.usedScope_eq_some hsc] at this
      exact absurd this (by simp)
    | @steer _ forks _ y m _ _ _ ht =>
      generalize forks y = fs at ht
      cases ht <;> simp [Deed.moves] at hi
    | fork _ _ _ | note _ | loop _ => simp [Deed.moves] at hi

theorem Sound.canCopy (hsr : src.Classified n) (hs : s.Sound src n blocks) (hst : s.Stocked src)
    {pred : Option BlockId} {i : InstId} {inst : Inst} (hi : src.func.insts[i]? = some inst)
    (h : src.Needs n blocks x (s.log x) (.visit pred i)) : src.CanCopy s x pred i inst := by
  have hin := hsr.ssa.inRange i inst hi
  refine ⟨hs.size ▸ h.1, (Array.getElem?_eq_some_iff.mp hi).1, fun v hv => ?_, ?_, ?_,
    hin.callee⟩
  · rw [Source.asked, left_eq] at hv
    exact hst.ready hsr (h.2.2 inst _ hi v hv)
  · intro addr g had hg
    have := hin.address addr g had hg
    exact ⟨this, by rw [hsr.fits.globals]; exact this⟩
  · intro g owner hg
    rw [hs.size]
    exact hsr.within.scope_lt (.global g) owner (Classification.usedScope_eq_some hg)

def Guard.available (hsr : src.Classified n) (blocks : List BlockId) : Guard src where
  fails := Act.Never
  holds s := s.Sound src n blocks ∧ s.Stocked src
  needs := src.Needs n blocks
  draft hs hn := .inr (hs.1.size ▸ hn.1)
  visit hsc hs hn := by
    obtain ⟨b, -, hb⟩ := hn.2.1
    obtain ⟨inst, hi, -⟩ := hsr.ssa.listed b _ hb
    exact .inr ⟨inst, hi, hs.1.canCopy hsr hs.2 hi hn⟩
  fork hs hn := .inr ⟨hs.1.size ▸ hn.1, hs.2.ready hsr hn.2⟩
  keeps hdo ha hs := ⟨hdo.sound hsr ha hs.1, hdo.stocked hsr hs.2⟩

end Emission

namespace Source

open Emission

variable {src : Source} {n : Nat} {blocks visited visited' visited'' : List BlockId}
  {s t : Emission} {x : Scope} {v : Value} {b : BlockId} {i : InstId} {log : Log}
  {moves moves' : List Move} {pred : Option BlockId} {tree : PostDominators}

/-- Moves that take a scope from some visited blocks to others, each with all that it needs. -/
def Goes (src : Source) (n : Nat) (blocks : List BlockId) (x : Scope)
    (visited visited' : List BlockId) (moves : List Move) : Prop :=
  ∀ log : Log, log.Visited src x visited → log.Admits (src.Needs n blocks x) moves ∧
    (moves.foldl Log.add log).Visited src x visited'

theorem goes_nil : src.Goes n blocks x visited visited [] := fun _ h => ⟨trivial, h⟩

theorem Goes.append (h : src.Goes n blocks x visited visited' moves)
    (h' : src.Goes n blocks x visited' visited'' moves') :
    src.Goes n blocks x visited visited'' (moves ++ moves') := by
  intro log hl
  obtain ⟨ha, hv⟩ := h log hl
  rw [Log.admits_append, List.foldl_append]
  exact ⟨⟨ha, (h' _ hv).1⟩, (h' _ hv).2⟩

theorem Goes.congr (h : src.Goes n blocks x visited visited' moves)
    (he : ∀ b, b ∈ visited' ↔ b ∈ visited'') : src.Goes n blocks x visited visited'' moves :=
  fun log hl => ⟨(h log hl).1, (h log hl).2.congr he⟩

theorem Goes.cons {m : Move} (hx : x.val < n) (hm : m.isSilent = true)
    (h : src.Goes n blocks x visited visited' moves) :
    src.Goes n blocks x visited visited' (m :: moves) := by
  intro log hl
  cases m with
  | visit _ _ | exit _ | fork _ => cases hm
  | _ => exact ⟨⟨⟨hx, trivial⟩, (h log hl).1⟩, (h log hl).2⟩

theorem goes_around {site : BranchSite} (hx : x.val < n)
    (hc : ∀ log : Log, log.Visited src x visited → src.Available blocks x log site.cond)
    (hT : src.Goes n blocks x visited visited' moves)
    (hF : src.Goes n blocks x visited' visited'' moves') :
    src.Goes n blocks x visited visited'' (Move.around site moves moves') := by
  intro log hl
  have h := Goes.cons hx (m := .enter true) rfl (hT.append (.cons hx (m := .leave) rfl
    (.cons hx (m := .enter false) rfl (hF.append (.cons hx (m := .leave) rfl
      (.cons hx (m := .close) rfl goes_nil))))))
  have := h (log.add (.fork site)) ⟨hl.made, hl.left⟩
  exact ⟨⟨⟨hx, hc log hl⟩, this.1⟩, this.2⟩

theorem goes_exit (hx : x.val < n) (hp : ∀ q, pred = some q → q ∈ visited) :
    src.Goes n blocks x visited visited (pred.toList.map .exit) := by
  cases pred with
  | none => exact goes_nil
  | some q =>
    refine fun log hl => ⟨⟨⟨hx, trivial⟩, trivial⟩, hl.made, fun b hb => ?_⟩
    rcases List.mem_cons.mp hb with rfl | hb
    · exact hp b rfl
    · exact hl.left b hb

/-- A block that a walk enters, of those in `blocks`, after those in `visited`. -/
structure Entering (src : Source) (blocks visited : List BlockId) (b : BlockId)
    (pred : Option BlockId) : Prop where
  closed : src.func.DominatorClosed visited
  dominators : src.func.DominatorsIn visited b
  subset : ∀ v ∈ b :: visited, v ∈ blocks
  pred_mem : ∀ q, pred = some q → q ∈ visited

theorem available_atEnd (hc : src.func.DominatorClosed visited) (hsu : ∀ b ∈ visited, b ∈ blocks)
    (hl : log.Visited src x visited) {q : BlockId} (hq : q ∈ visited)
    (hv : v.InRange src.program src.func)
    (hde : ∀ j, v = .inst j → src.func.DefinedAtEnd q j) : src.Available blocks x log v := by
  refine ⟨hv, fun j hj => ?_, fun j hj hs => ?_⟩ <;> obtain ⟨d, hd, hjd⟩ := hde j hj
  · exact ⟨d, hsu d (hc q hq d hd), hjd⟩
  · exact hl.made d (hc q hq d hd) j hjd hs

section

variable (hsr : src.Classified n)
include hsr

theorem Entering.available (he : src.Entering blocks visited b pred)
    (hl : log.Visited src x visited) {before after : List InstId}
    (hb : src.func.instsOf b = before ++ i :: after)
    (hf : ∀ j ∈ before, src.table.instScope j = some x → log.Made j) {inst : Inst}
    (hi : src.func.insts[i]? = some inst) {types : TypePool}
    (hv : v ∈ src.resolved types x log.left pred inst.op) : src.Available blocks x log v := by
  have hm : i ∈ src.func.instsOf b := by simp [hb]
  have hsu : ∀ b ∈ visited, b ∈ blocks := fun b hb => he.subset b (List.mem_cons_of_mem _ hb)
  obtain ⟨ho, -, hinc⟩ := mem_resolved hv
  have hr := (hsr.ssa.inRange i inst hi).operand v ho
  cases hph : inst.op.isPhi with
  | false =>
    have hd : ∀ j, v = .inst j → j ∈ before ∨ src.func.DefinedAbove b j := fun j hj =>
      hsr.ssa.operand_defined b before i after inst hb hi hph j (hj ▸ ho)
    refine ⟨hr, fun j hj => ?_, fun j hj hs => ?_⟩ <;>
      rcases hd j hj with hj | ⟨d, hne, hd, hjd⟩
    · exact ⟨b, he.subset b List.mem_cons_self, by simp [hb, hj]⟩
    · exact ⟨d, hsu d (he.dominators d hd hne), hjd⟩
    · exact hf j hj hs
    · exact hl.made d (he.dominators d hd hne) j hjd hs
  | true =>
    obtain ⟨incoming, hop⟩ : ∃ incoming, inst.op = .phi incoming := by
      cases hop : inst.op <;> simp_all [Operation.isPhi]
    have hde := hsr.ssa.incoming_defined b i inst _ hm hi hop
    rcases hinc incoming hop with ⟨q, hq, hv⟩ | ⟨-, e, hem, hlf, rfl⟩
    · exact available_atEnd he.closed hsu hl (he.pred_mem q hq) hr (hde (q, v) (mem_of_lookup hv))
    · exact available_atEnd he.closed hsu hl (hl.left e.1 hlf) hr (hde e hem)

/-- The instructions of a block find their operands before them or in the blocks above. -/
theorem goes_visits (hx : x.val < n) (he : src.Entering blocks visited b pred) :
    src.Goes n blocks x visited (b :: visited) (Itinerary.moves.visits src x b pred) := by
  have key : ∀ (after before : List InstId) (log : Log), src.func.instsOf b = before ++ after →
      log.Visited src x visited → (∀ j ∈ before, src.table.instScope j = some x → log.Made j) →
      log.Admits (src.Needs n blocks x) ((after.filter fun i =>
        decide (src.table.instScope i = some x)).map (.visit pred)) := by
    intro after
    induction after with
    | nil => exact fun _ _ _ _ _ => trivial
    | cons i after ih =>
      intro before log hb hl hf
      have hb' : src.func.instsOf b = (before ++ [i]) ++ after := by simp [hb]
      by_cases hi : src.table.instScope i = some x
      · rw [List.filter_cons_of_pos (by simpa using hi), List.map_cons]
        refine ⟨⟨hx, ⟨b, he.subset b List.mem_cons_self, by simp [hb]⟩,
          fun inst types hi v hv => he.available hsr hl hb hf hi hv⟩,
          ih _ _ hb' ⟨fun c hc j hj hs => ?_, hl.left⟩ fun j hj hs => ?_⟩
        · obtain ⟨p, hp⟩ := hl.made c hc j hj hs
          exact ⟨p, List.mem_cons_of_mem _ hp⟩
        · rcases List.mem_append.mp hj with hj | hj
          · obtain ⟨p, hp⟩ := hf j hj hs
            exact ⟨p, List.mem_cons_of_mem _ hp⟩
          · exact ⟨pred, List.mem_singleton.mp hj ▸ List.mem_cons_self⟩
      · rw [List.filter_cons_of_neg (by simpa using hi)]
        refine ih _ _ hb' hl fun j hj hs => ?_
        rcases List.mem_append.mp hj with hj | hj
        · exact hf j hj hs
        · exact absurd (List.mem_singleton.mp hj ▸ hs) hi
  refine fun log hl => ⟨key _ [] log rfl hl (by simp), fun c hc i hi hs => ?_, fun c hc => ?_⟩
  · rw [Log.made_foldl]
    rcases List.mem_cons.mp hc with rfl | hc
    · exact .inr ⟨pred, by simp [Itinerary.moves.visits, hi, hs]⟩
    · exact .inl (hl.made c hc i hi hs)
  · rw [Log.mem_left_foldl] at hc
    exact List.mem_cons_of_mem _ (hl.left c (hc.resolve_right (by simp [Itinerary.moves.visits])))

/-- By induction on an itinerary, each block finds what its dominators have made. -/
theorem goes_moves (hx : x.val < n) {active : List BlockId} {block : BlockId}
    {stop : Option BlockId} {it : Itinerary}
    (hf : Route.Follows ⟨src.func, tree⟩ active block stop it) (faithful : Bool)
    (pred : Option BlockId) (hsup : it.Supported src.func visited)
    (hc : src.func.DominatorClosed visited) (hsu : ∀ b ∈ it.entered ++ visited, b ∈ blocks)
    (hp : ∀ q, pred = some q → q ∈ visited) :
    src.Goes n blocks x visited (it.entered ++ visited) (it.moves src x faithful pred) := by
  induction hf generalizing visited pred faithful with
  | join _ => exact goes_exit hx hp
  | loop _ _ => exact goes_nil
  | @ret _ block _ _ _ _ _ =>
    refine (goes_visits hsr hx ⟨hc, hsup, hsu, hp⟩).append ?_
    cases faithful with
    | false => exact goes_nil
    | true => exact .cons hx rfl goes_nil
  | @jump _ block _ _ next _ _ _ _ ih =>
    obtain ⟨hbl, hn⟩ : src.func.DominatorsIn visited block ∧
        next.Supported src.func (block :: visited) := hsup
    have he : ∀ b, b ∈ next.entered ++ block :: visited ↔
        b ∈ (Itinerary.jump block next).entered ++ visited := by
      intro b
      simp only [Itinerary.entered, List.mem_append, List.mem_cons]
      tauto
    have hsu' := fun b hb => hsu b ((he b).mp hb)
    exact ((goes_visits hsr hx ⟨hc, hbl, fun b hb => hsu' b (List.mem_append_right _ hb), hp⟩).append
      (ih faithful (some block) hn (hbl.closed hc) hsu' (by simp))).congr he
  | @fork _ stop site arm rest hbr _ _ _ hen _ ihtrue ihfalse ihrest =>
    obtain ⟨hbl, hfi, hse, hl⟩ : src.func.DominatorsIn visited site.block ∧
      (arm site.ifTrue).Supported src.func (site.block :: visited) ∧
      (arm site.ifFalse).Supported src.func ((arm site.ifTrue).entered ++ site.block :: visited) ∧
      rest.Supported src.func ((arm site.ifFalse).entered ++
        ((arm site.ifTrue).entered ++ site.block :: visited)) := hsup
    have he : ∀ b, b ∈ rest.entered ++ ((arm site.ifFalse).entered ++
        ((arm site.ifTrue).entered ++ site.block :: visited)) ↔
        b ∈ (Itinerary.fork site arm rest).entered ++ visited := by
      intro b
      simp only [Itinerary.entered, List.mem_append, List.mem_cons]
      tauto
    have hsr' := fun b hb => hsu b ((he b).mp hb)
    have hsF := fun b hb => hsr' b (List.mem_append_right _ hb)
    have hsT := fun b hb => hsF b (List.mem_append_right _ hb)
    have hsB := fun b hb => hsT b (List.mem_append_right _ hb)
    have hc1 := hbl.closed hc
    have hc2 := hfi.closed hc1
    have hT := fun faithful => ihtrue faithful (some site.block) hfi hc1 hsT (by simp)
    have hF := fun faithful => ihfalse faithful (some site.block) hse hc2 hsF (by simp)
    have hcond? : src.func.cond? site.block = some site.cond := by
      have ht : src.func.terminator? site.block
        = some (.branch site.cond site.ifTrue site.ifFalse) := hbr.terminator
      simp [Function.cond?, ht, Terminator.cond?]
    have hco : ∀ log : Log, log.Visited src x (site.block :: visited) →
        src.Available blocks x log site.cond := fun log hl =>
      available_atEnd hc1 hsB hl List.mem_cons_self (hsr.ssa.cond_inRange site.block _ hcond?)
        fun j hj => hsr.ssa.cond_defined site.block j (hj ▸ hcond?)
    have hr : src.Goes n blocks x ((arm site.ifFalse).entered ++
        ((arm site.ifTrue).entered ++ site.block :: visited)) (rest.entered ++
        ((arm site.ifFalse).entered ++ ((arm site.ifTrue).entered ++ site.block :: visited)))
        (rest.moves src x faithful none) := by
      rcases hen with ⟨-, rfl⟩ | ⟨join, hjo, hst⟩
      · exact goes_nil
      · exact ihrest join hjo hst faithful none hl (hse.closed hc2) hsr' (by simp)
    refine ((goes_visits hsr hx ⟨hc, hbl, hsB, hp⟩).append (Goes.append ?_ hr)).congr he
    split
    · exact .cons hx rfl (goes_around hx hco (hT faithful) (hF faithful))
    · exact (hT false).append (hF false)

/-- Copying ends, and every scope then has what its moves along the itinerary made. -/
theorem sat_copyAll (hl : n ≤ Scope.limit) (ht : tree.Exact src.func)
    (hs : s.Sound src n blocks) (hbl : blocks = (Route.itinerary ⟨src.func, tree⟩).entered)
    (hlog : ∀ x, s.log x = ⟨[], [], []⟩) :
    Act.Sat Act.Never (src.copyAll tree) s fun _ t => t.Sound src n blocks ∧ t.Stocked src ∧
      ∀ x : Scope, x.val < n → (t.log x).Visited src x blocks := by
  have he := hsr.ssa.entry_lt
  have hsu := (Route.itinerary_supported (r := ⟨src.func, tree⟩) hsr.ssa.targets ht he).1
  have hgo : ∀ x : Scope, x.val < n → src.Goes n blocks x [] blocks
      ((Route.itinerary ⟨src.func, tree⟩).moves src x true none) := fun x hx =>
    (goes_moves hsr hx (Route.follows_itinerary hsr.ssa.targets ht he) true none hsu
      (fun v hv => by simp at hv) (by simp [hbl]) (by simp)).congr fun b => by simp [hbl]
  have hem : ∀ x, (s.log x).Visited src x [] := fun x => by
    rw [hlog]
    exact ⟨by simp, by simp⟩
  have had : ∀ x, (s.log x).Admits (src.Needs n blocks x) (src.moves tree s.drafts.size x) := by
    intro x
    rw [moves, hs.size]
    split
    · next hin => exact (hgo x ((ScopeSet.contains_first hl).mp hin) _ (hem x)).1
    · trivial
  have hst : s.Stocked src := fun x i hi => by
    rw [hlog] at hi
    obtain ⟨_, hi⟩ := hi
    simp at hi
  refine (tells_copyAll (.available hsr blocks) tree ⟨hs, hst⟩ had
    (.inr (Route.found_itinerary hsr.ssa.targets ht he))).mono ?_
  rintro _ u ⟨-, hp⟩
  have had' := fun x => (List.append_nil (src.moves tree s.drafts.size x)).symm ▸ had x
  obtain ⟨hsu', hst'⟩ := ((Guard.available hsr blocks).performs hp ⟨hs, hst⟩ had').1
  obtain ⟨deeds, hr, hm⟩ := hp
  refine ⟨hsu', hst', fun x hx => ?_⟩
  rw [show u.log x = _ from hr.log x, hm, moves, hs.size,
    if_pos ((ScopeSet.contains_first hl).mpr hx)]
  exact (hgo x hx _ (hem x)).2

end

end Source

end Stagewise
