import Stagewise.Proofs.Emission.Moves
import Stagewise.Proofs.Emission.Picture
import Stagewise.Proofs.Sketch.Frame

namespace Stagewise

structure Fork.Fits (fork : Fork) (n : Nat) : Prop where
  arm : ∀ first, (if (fork.arm first).fresh then (fork.arm first).target else fork.branch) < n
  join : ∀ join, fork.join = some join → join < n

theorem Fork.Fits.mono {fork : Fork} {n m : Nat} (h : fork.Fits n) (hle : n ≤ m) : fork.Fits m :=
  ⟨fun first => (h.arm first).trans_le hle, fun join hj => (h.join join hj).trans_le hle⟩

namespace Sketch

def take (src : Source) (x : Scope) : Sketch × List Fork → Move → Sketch × List Fork
  | (k, forks), .visit pred i => (k.append (src.mark? x k.exits pred i).toList, forks)
  | (k, forks), .fork site => ((k.openFork site).2, (k.openFork site).1 :: forks)
  | (k, fork :: rest), .enter first => (k.enterArm fork (fork.arm first), fork :: rest)
  | (k, fork :: rest), .leave => (k.leaveArm fork, fork :: rest)
  | (k, fork :: rest), .close => (k.closeFork fork, rest)
  | (k, forks), .exit block => (k.noteExit block, forks)
  | (k, forks), .ret => (k.finishIfOpen .ret, forks)
  | p, _ => p

variable {k : Sketch} {forks : List Fork}

theorem append_append (k : Sketch) (ms ms' : List Mark) :
    (k.append ms).append ms' = k.append (ms ++ ms') := by
  simp [append, List.append_assoc]

theorem fits_openFork (hk : k.Wf) (site : BranchSite) :
    k.size ≤ (k.openFork site).2.size ∧ (k.openFork site).1.Fits (k.openFork site).2.size := by
  have hs := opened_openFork hk site
  have hbr := hs.branch ▸ hk.current_lt.trans_le hs.size_le
  have ha : ∀ {start arm}, ArmOpens k (k.openFork site).2 site (k.openFork site).1 start arm →
      (if arm.fresh then arm.target else (k.openFork site).1.branch) < (k.openFork site).2.size := by
    intro start arm h
    cases h with
    | fresh _ _ hlt _ => exact hlt
    | atJoin _ _ => exact hbr
  refine ⟨hs.size_le, fun first => ?_, fun join hjo => ?_⟩
  · cases first with
    | true => exact ha hs.ifTrue
    | false => exact ha hs.ifFalse
  · cases hj : site.join with
    | none => exact absurd (hs.join_none hj ▸ hjo) (by simp)
    | some j =>
      obtain ⟨b, hb, -, hlt, -⟩ := hs.join_some j hj
      exact Option.mem_unique hb hjo ▸ hlt

theorem finishIfOpen_size (k : Sketch) (x : Exit) : (k.finishIfOpen x).size = k.size := by
  unfold finishIfOpen
  split <;> rfl

theorem fits_take (hk : k.Wf) (h : ∀ fork ∈ forks, fork.Fits k.size) (src : Source) (x : Scope)
    (m : Move) : ∀ fork ∈ (take src x (k, forks) m).2, fork.Fits (take src x (k, forks) m).1.size := by
  match m, forks with
  | .visit _ _, _ | .exit _, _ | .note _, _ => exact h
  | .enter _, _ :: _ | .enter _, [] | .leave, [] | .close, [] => exact h
  | .ret, _ => exact fun fork hf => (finishIfOpen_size k .ret).symm ▸ h fork hf
  | .leave, fork :: rest => exact fun other ho => (k.leaveArm_size fork).symm ▸ h other ho
  | .close, fork :: rest =>
    intro other ho
    have hs : (k.closeFork fork).size = k.size := by
      unfold closeFork
      split <;> rfl
    exact hs.symm ▸ h other (List.mem_cons_of_mem _ ho)
  | .fork site, forks =>
    obtain ⟨hle, hfi⟩ := fits_openFork hk site
    intro other ho
    rcases List.mem_cons.mp ho with rfl | ho
    · exact hfi
    · exact (h other ho).mono hle

end Sketch

/-- To draw the moves of an itinerary one by one is to draw the itinerary. -/
theorem Itinerary.foldl_moves (src : Source) (x : Scope) (it : Itinerary) (faithful : Bool)
    (pred : Option BlockId) (k : Sketch) (forks : List Fork) :
    (it.moves src x faithful pred).foldl (Sketch.take src x) (k, forks)
      = (it.draw (src.plan x) faithful pred k, forks) := by
  have hv : ∀ block pred (k : Sketch) (forks : List Fork),
      (moves.visits src x block pred).foldl (Sketch.take src x) (k, forks)
        = (k.append ((src.plan x).marks k.exits pred block), forks) := by
    intro block pred k forks
    show _ = (k.append ((src.func.instsOf block).filterMap (src.mark? x k.exits pred)), forks)
    unfold moves.visits
    induction src.func.instsOf block generalizing k with
    | nil => rw [List.filterMap_nil, Sketch.append_nil]; rfl
    | cons i rest ih =>
      by_cases hi : src.table.instScope i = some x
      · rw [List.filter_cons_of_pos (by simpa using hi), List.map_cons, List.foldl_cons]
        refine (ih _).trans ?_
        rw [Sketch.append_append, Sketch.append_exits, List.filterMap_cons]
        cases src.mark? x k.exits pred i <;> rfl
      · have hm : src.mark? x k.exits pred i = none := by simp [Source.mark?, hi]
        rw [List.filter_cons_of_neg (by simpa using hi), ih, List.filterMap_cons_none hm]
  induction it generalizing faithful pred k forks with
  | lost | done | loop _ => rfl
  | join block => cases pred <;> rfl
  | ret block =>
    rw [moves, List.foldl_append, hv]
    cases faithful <;> rfl
  | jump block next ih =>
    rw [moves, List.foldl_append, hv, ih]
    rfl
  | fork site arm rest ihArm ihRest =>
    rw [moves, List.foldl_append, hv, List.foldl_append]
    cases hw : (src.wantedScopes site).contains x with
    | true =>
      rw [draw_fork_wanted hw arm rest faithful pred rfl]
      simp only [if_true, Move.around, List.foldl_cons, List.foldl_append, Sketch.take, ihArm, ihRest,
        List.foldl_nil]
      rfl
    | false =>
      rw [draw_fork_unwanted hw]
      simp only [Bool.false_eq_true, if_false, List.foldl_append, ihArm, ihRest]

namespace Draft

variable {src : Source} {d : Draft} {k : Sketch} {d' : Draft}

section

variable (h : d.Shows src k)
include h

theorem Shows.wf : k.Wf := by
  refine ⟨h.current_lt, fun b hb => ?_, fun b hb => ?_, h.joins_lt⟩
  · have hn : d.builder.func.marked b = [] := by
      rw [Function.marked, Function.selected, Function.instsOf_eq_nil (h.size ▸ hb)]
      rfl
    have := h.marks b
    rw [hn] at this
    exact List.forall₂_nil_left_iff.mp this
  · have := h.ends b
    rw [Function.terminator?_eq_none (h.size ▸ hb)] at this
    generalize k.ends b = x at this
    cases this
    rfl

theorem Shows.newBlock :
    Shows src { d with builder := d.builder.newBlock.2 } { k with size := k.size + 1 } := by
  refine ⟨?_, h.current, Nat.lt_succ_of_lt h.current_lt, h.entry, h.exits, h.joins,
    fun j b hb => Nat.lt_succ_of_lt (h.joins_lt j b hb), fun b => ?_, fun b => ?_, fun b => ?_,
    h.names, h.functions, h.logged, h.homed.addBlock, h.clashes⟩
  · exact (Function.addBlock_numBlocks _).trans (congrArg (· + 1) h.size)
  · show Ends _ b (d.builder.func.addBlock.2.terminator? b) _
    rw [Function.addBlock_terminator?]
    exact (h.ends b).branches rfl
  · have hm : d.builder.func.addBlock.2.marked b = d.builder.func.marked b := by
      rw [Function.marked, Function.selected, Function.addBlock_instsOf]
      rfl
    show List.Forall₂ _ (d.builder.func.addBlock.2.marked b) _
    rw [hm]
    refine forall₂_marks_extends (h.marks b) ?_
    exact ⟨fun _ _ he => he, fun _ hx => hx, List.prefix_rfl, List.prefix_rfl⟩
  · show ∀ e ∈ d.builder.func.addBlock.2.instsOf b, _
    rw [Function.addBlock_instsOf]
    exact h.listed b

theorem Shows.joinBlock (join : BlockId) :
    (d.joinBlock join).1 = (k.joinBlock join).1 ∧
      (d.joinBlock join).2.Shows src (k.joinBlock join).2 := by
  unfold Draft.joinBlock Sketch.joinBlock
  rw [h.joins join]
  cases hj : k.joins join with
  | some b => exact ⟨rfl, h⟩
  | none =>
    have hn := h.newBlock
    have hid : d.builder.newBlock.1 = k.size := h.size
    refine ⟨hid, hn.size, hn.current, hn.current_lt, hn.entry, hn.exits, fun b => ?_,
      fun j b hb => ?_, fun b => (hn.ends b).branches rfl, fun b => ?_, hn.listed, hn.names,
      hn.functions, hn.logged, hn.homed, hn.clashes⟩
    · simp only [List.lookup_cons, hid]
      by_cases hb : b = join
      · subst hb
        simp
      · rw [beq_false_of_ne hb, Function.update_of_ne hb]
        exact h.joins b
    · by_cases hjb : j = join
      · subst hjb
        have hb : Function.update k.joins j (some k.size) j = some b := hb
        rw [Function.update_self] at hb
        exact Option.some.inj hb ▸ Nat.lt_succ_self _
      · have hb : Function.update k.joins join (some k.size) j = some b := hb
        rw [Function.update_of_ne hjb] at hb
        exact Nat.lt_succ_of_lt (h.joins_lt j b hb)
    · exact forall₂_marks_extends (hn.marks b)
        (extends_of_builder_eq rfl rfl List.prefix_rfl List.prefix_rfl)

theorem Shows.armBlock (site : BranchSite) (join : Option BlockId) (arm : BlockId) :
    (d.armBlock site join arm).1 = (k.armBlock site join arm).1 ∧
      (d.armBlock site join arm).2.Shows src (k.armBlock site join arm).2 := by
  have hid : d.builder.newBlock.1 = k.size := h.size
  unfold Draft.armBlock Sketch.armBlock
  cases join with
  | none => exact ⟨by simp only [hid], h.newBlock⟩
  | some b =>
    simp only
    split
    · exact ⟨rfl, h⟩
    · exact ⟨by simp only [hid], h.newBlock⟩

theorem Shows.isTerminated : d.builder.isTerminated = (k.ends k.current).isSome := by
  have := h.ends k.current
  rw [Builder.isTerminated, Function.isTerminated, h.current]
  generalize d.builder.func.terminator? k.current = t at this
  generalize k.ends k.current = x at this
  cases this <;> rfl

/-- Ending the current block of a part ends that of its sketch, and no other block changes. -/
theorem Shows.terminate {t : Terminator} {x : Exit}
    {branches : List (BlockId × BlockId)}
    (hk : ∀ b, b ≠ k.current → branches.lookup b = d.branches.lookup b)
    (hx : Ends { d with branches := branches } k.current (some t) (some x))
    (hl : ∀ source, branches.lookup k.current = some source →
      ∃ ifTrue ifFalse, x = .branch source ifTrue ifFalse) :
    Shows src { d with builder := d.builder.terminate t, branches := branches } (k.finish x) := by
  have hcu := h.current_lt_numBlocks
  refine ⟨?_, h.current, h.current_lt, h.entry, h.exits, h.joins, h.joins_lt, fun b => ?_, fun b => ?_,
    fun b => ?_, h.names, h.functions, fun b source hb => ?_, h.homed.setTerminator _ t,
    ?_⟩
  · exact (Function.setTerminator_numBlocks ..).trans h.size
  · show Ends _ b ((d.builder.func.setTerminator d.builder.current t).terminator? b)
      (Function.update k.ends k.current (some x) b)
    by_cases hb : b = k.current
    · subst hb
      rw [← h.current, Function.setTerminator_terminator? _ hcu, h.current, Function.update_self]
      generalize some t = t' at hx
      generalize some x = x' at hx
      cases hx with
      | none => exact .none
      | ret => exact .ret
      | jump target => exact .jump target
      | branch cond ifTrue ifFalse hs => exact .branch cond ifTrue ifFalse hs
    · rw [Function.setTerminator_terminator?_ne _ (h.current ▸ hb), Function.update_of_ne hb]
      have ho := h.ends b
      generalize d.builder.func.terminator? b = t' at ho
      generalize k.ends b = x' at ho
      cases ho with
      | none => exact .none
      | ret => exact .ret
      | jump target => exact .jump target
      | branch cond ifTrue ifFalse hs => exact .branch cond ifTrue ifFalse ((hk b hb).trans hs)
  · have hm : (d.builder.func.setTerminator d.builder.current t).marked b
        = d.builder.func.marked b := by
      rw [Function.marked, Function.selected, Function.setTerminator_instsOf]
      rfl
    show List.Forall₂ _ ((d.builder.func.setTerminator d.builder.current t).marked b) _
    rw [hm]
    refine forall₂_marks_extends (h.marks b) ?_
    exact ⟨fun _ _ he => he, fun _ hx => hx, List.prefix_rfl, List.prefix_rfl⟩
  · show ∀ e ∈ (d.builder.func.setTerminator d.builder.current t).instsOf b, _
    rw [Function.setTerminator_instsOf]
    exact h.listed b
  · show ∃ ifTrue ifFalse, Function.update k.ends k.current (some x) b = _
    by_cases hc : b = k.current
    · subst hc
      obtain ⟨ifTrue, ifFalse, rfl⟩ := hl source hb
      exact ⟨ifTrue, ifFalse, Function.update_self ..⟩
    · rw [Function.update_of_ne hc]
      exact h.logged b source ((hk b hc).symm.trans hb)
  · simp only [Builder.terminate, Sketch.finish, h.isTerminated, h.clashes]

end

/-- Copies a branch to the cursor, with the block where its arms come together. -/
def openArms (d : Draft) (site : BranchSite) (cond : Value) (join : Option BlockId) :
    Fork × Draft :=
  let (ifTrue, d) := d.armBlock site join site.ifTrue
  let (ifFalse, d) := d.armBlock site join site.ifFalse
  (⟨d.builder.current, ifTrue, ifFalse, join⟩,
    { d with
      builder := d.builder.terminate (.branch cond ifTrue.target ifFalse.target)
      branches := (d.builder.current, site.block) :: d.branches })

theorem openFork_eq (d : Draft) (site : BranchSite) (cond : Value) :
    d.openFork site cond = match site.join with
      | some join => (d.joinBlock join).2.openArms site cond (some (d.joinBlock join).1)
      | none => d.openArms site cond none := by
  unfold Draft.openFork
  cases site.join <;> rfl

section

variable (h : d.Shows src k)
include h

theorem Shows.openArms (site : BranchSite) (cond : Value) (join : Option BlockId) :
    (d.openArms site cond join).1 = (k.openArms site join).1 ∧
      (d.openArms site cond join).2.Shows src (k.openArms site join).2 := by
  obtain ⟨hf, hT⟩ := h.armBlock site join site.ifTrue
  obtain ⟨hsn, hF⟩ := hT.armBlock site join site.ifFalse
  simp only [Draft.openArms, Sketch.openArms, hf, hsn, hF.current, true_and]
  refine hF.terminate (fun b hb => ?_) (.branch cond _ _ ?_) fun source hs => ?_
  · rw [List.lookup_cons, beq_false_of_ne hb]
  · simp
  · rw [List.lookup_cons_self] at hs
    exact ⟨_, _, by rw [Option.some.inj hs]⟩

theorem Shows.openFork (site : BranchSite) (cond : Value) :
    (d.openFork site cond).1 = (k.openFork site).1 ∧
      (d.openFork site cond).2.Shows src (k.openFork site).2 := by
  rw [openFork_eq, Sketch.openFork]
  cases site.join with
  | none => exact h.openArms site cond none
  | some join =>
    obtain ⟨hb, hj⟩ := h.joinBlock join
    simp only [hb]
    exact hj.openArms site cond _

theorem Shows.positionAt {b : BlockId} (hb : b < k.size) :
    Shows src { d with builder := d.builder.positionAt b } { k with current := b } :=
  ⟨h.size, rfl, hb, h.entry, h.exits, h.joins, h.joins_lt, fun b => (h.ends b).branches rfl,
    fun b => forall₂_marks_extends (h.marks b)
      ⟨fun _ _ he => he, fun _ hx => hx, List.prefix_rfl, List.prefix_rfl⟩, h.listed, h.names,
    h.functions, h.logged, h.homed, h.clashes⟩

theorem Shows.terminateIfOpen {t : Terminator} {x : Exit}
    (hx : d.Ends k.current (some t) (some x)) :
    Shows src { d with builder := d.builder.terminateIfOpen t } (k.finishIfOpen x) := by
  unfold Builder.terminateIfOpen Sketch.finishIfOpen
  rw [h.isTerminated]
  split
  · exact h
  · next ho =>
    refine h.terminate (fun _ _ => rfl) hx fun source hs => ?_
    obtain ⟨ifTrue, ifFalse, he⟩ := h.logged _ source hs
    simp [he] at ho

theorem Shows.leaveArm (fork : Fork) : (d.leaveArm fork).Shows src (k.leaveArm fork) := by
  unfold Draft.leaveArm Sketch.leaveArm
  rw [h.current]
  cases fork.join with
  | none => exact h
  | some join =>
    simp only
    split
    · exact h
    · exact h.terminateIfOpen (.jump join)

theorem Shows.closeFork {fork : Fork} (hlt : ∀ join, fork.join = some join → join < k.size) :
    (d.closeFork fork).Shows src (k.closeFork fork) := by
  unfold Draft.closeFork Sketch.closeFork
  cases hj : fork.join with
  | none => exact h
  | some join =>
    have := h.positionAt (hlt join hj)
    exact ⟨this.size, this.current, this.current_lt, this.entry, this.exits, this.joins, this.joins_lt,
      fun b => (this.ends b).branches rfl, fun b => forall₂_marks_extends (this.marks b)
        ⟨fun _ _ he => he, fun _ hx => hx, List.prefix_rfl, List.prefix_rfl⟩, this.listed, this.names,
      this.functions, this.logged, this.homed, this.clashes⟩

theorem Shows.ret : d.ret.Shows src (k.finishIfOpen .ret) :=
  h.terminateIfOpen .ret

theorem Shows.noteExit (block : BlockId) : (d.noteExit block).Shows src (k.noteExit block) := by
  refine ⟨h.size, h.current, h.current_lt, h.entry, fun b => ?_, h.joins, h.joins_lt,
    fun b => (h.ends b).branches rfl, fun b => forall₂_marks_extends (h.marks b)
      (extends_of_builder_eq rfl rfl List.prefix_rfl List.prefix_rfl), h.listed, h.names, h.functions,
    h.logged, h.homed, h.clashes⟩
  simp only [Draft.noteExit, Sketch.noteExit, List.lookup_cons, h.current]
  by_cases hb : b = block
  · subst hb
    simp
  · rw [beq_false_of_ne hb, Function.update_of_ne hb]
    exact h.exits b

end

theorem extends_of_insts_eq (hi : d'.builder.func.insts = d.builder.func.insts)
    (hc : d'.copies = d.copies) (hp : d'.program = d.program) : d.Extends d' :=
  ⟨fun e inst he => by rw [hi]; exact he, fun x hx => by rw [hc]; exact hx, by rw [hp], by rw [hp]⟩

theorem SameCode.extends (h : d.SameCode d') : d.Extends d' :=
  extends_of_insts_eq h.insts h.copies h.program

end Draft

namespace Emission

variable {src : Source} {s : Emission} {K K' : Scope → Sketch} {scope : Scope} {k : Sketch}

theorem Pictured.congr (h : s.Pictured src K) (he : ∀ scope, K scope = K' scope) :
    s.Pictured src K' :=
  ⟨fun scope d hd => he scope ▸ h.scopes scope d hd, h.others, h.values, h.arrays⟩

/-- The parts look like the sketches of their scopes, whose open forks are in them. -/
structure Stage.Pictured (src : Source) (K : Scope → Sketch × List Fork) (s : Stage) : Prop where
  state : s.state.Pictured src fun x => (K x).1
  forks : ∀ x, s.forks x = (K x).2
  fits : ∀ x, ∀ fork ∈ (K x).2, fork.Fits (K x).1.size

variable {s : Stage} {K : Scope → Sketch × List Fork} {t : Stage}

theorem Stage.Pictured.setDraft (h : s.Pictured src K)
    {d d' : Draft} (hd : s.state.drafts[scope.val]? = some d) (he : d.Extends d') {m : Move}
    {p : Sketch × List Fork} (hp : Sketch.take src scope (K scope) m = p) (hs : d'.Shows src p.1) :
    Stage.Pictured src (fun x => (Deed.moves x (.move scope m)).foldl (Sketch.take src x) (K x))
      ⟨s.state.setDraft scope d', Function.update s.forks scope p.2⟩ := by
  subst hp
  refine ⟨(h.state.setDraft hd he hs).congr fun x => ?_, fun x => ?_, fun x => ?_⟩
  · by_cases hx : x = scope
    · subst hx
      simp [Deed.moves]
    · simp [Deed.moves, hx, Ne.symm hx]
  · by_cases hx : x = scope
    · subst hx
      simp [Deed.moves]
    · simp [Deed.moves, hx, Ne.symm hx, h.forks]
  · by_cases hx : x = scope
    · subst hx
      simpa [Deed.moves] using Sketch.fits_take (h.state.scopes x d hd).wf (h.fits x) src x m
    · simpa [Deed.moves, Ne.symm hx] using h.fits x

/-- What one step does to the parts, its moves do to their sketches. -/
theorem Does.pictured {deed : Deed} (hdo : Does src deed s t) (h : s.Pictured src K) :
    t.Pictured src fun x => (deed.moves x).foldl (Sketch.take src x) (K x) := by
  cases hdo with
  | @visit s t forks scope pred i inst d hsc hi hd hc =>
    have hv : (s.setDraft scope (d.noteVisit pred i)).Pictured src fun x => (K x).1 :=
      h.state.setDraft_same hd (Draft.extends_of_insts_eq rfl rfl rfl)
        ((h.state.scopes _ _ hd).noteVisit pred)
    have hm : ∀ exits, src.mark? scope exits pred i = inst.op.mark? exits pred i := by
      simp [Source.mark?, hsc, hi]
    refine ⟨(hc.pictured hi hv).congr fun x => ?_, fun x => (h.forks x).trans ?_,
      fun x => ?_⟩
    · by_cases hx : x = scope
      · subst hx
        simp [Deed.moves, Sketch.take, hm]
      · simp [Deed.moves, hx, Ne.symm hx]
    · rw [Deed.moves]
      split <;> rfl
    · rw [Deed.moves]
      split <;> exact h.fits x
  | @fork s t forks scope site cond d hr _ hd =>
    have ht : Stage.Pictured src K ⟨t, forks⟩ := ⟨hr.pictured h.state, h.forks, h.fits⟩
    obtain ⟨hfo, ho⟩ := (ht.state.scopes scope d hd).openFork site cond
    rw [hfo, show forks scope = (K scope).2 from h.forks scope]
    exact ht.setDraft hd (d.sameCode_openFork site cond).extends rfl ho
  | @steer s forks after scope m d d' hd hta =>
    have hs := h.state.scopes scope d hd
    have hf := h.fits scope
    have hp : Sketch.take src scope (K scope) m = Sketch.take src scope ((K scope).1, forks scope) m :=
      congrArg (Sketch.take src scope · m) (Prod.ext rfl (h.forks scope).symm)
    rw [← show forks scope = (K scope).2 from h.forks scope] at hf
    generalize forks scope = fs at hta hp hf
    have he := hta.sameCode.extends
    cases hta with
    | exit _ block => exact h.setDraft hd he hp (hs.noteExit block)
    | ret _ => exact h.setDraft hd he hp hs.ret
    | enter fork rest first =>
      exact h.setDraft hd he hp (hs.positionAt ((hf fork List.mem_cons_self).arm first))
    | leave fork rest => exact h.setDraft hd he hp (hs.leaveArm fork)
    | close fork rest => exact h.setDraft hd he hp (hs.closeFork (hf fork List.mem_cons_self).join)
  | @note s _ block scopes _ =>
    have hK : (fun x => (Deed.moves x (.note block scopes)).foldl (Sketch.take src x) (K x)) = K := by
      funext x
      rw [Deed.moves]
      split
      · rcases K x with ⟨k, _ | _⟩ <;> rfl
      · rfl
    rw [hK]
    exact ⟨⟨h.state.scopes, h.state.others, h.state.values, h.state.arrays⟩, h.forks, h.fits⟩
  | loop _ => exact ⟨⟨h.state.scopes, h.state.others, h.state.values, h.state.arrays⟩, h.forks, h.fits⟩

theorem Run.pictured {deeds : List Deed} (hr : Run src deeds s t) (h : s.Pictured src K) :
    t.Pictured src fun x => (deeds.flatMap (Deed.moves x)).foldl (Sketch.take src x) (K x) := by
  induction hr generalizing K with
  | nil => exact h
  | cons hdo _ ih =>
    simp only [List.flatMap_cons, List.foldl_append]
    exact ih (hdo.pictured h)

end Emission

namespace Source

open Emission

variable {src : Source}

theorem shows_empty (src : Source) (scope : Scope) (program func : String) :
    (Draft.empty scope program func).Shows src .empty := by
  have hi : ∀ b, (Draft.empty scope program func).builder.func.instsOf b = [] := by
    intro b
    cases b <;> rfl
  refine ⟨rfl, rfl, Nat.one_pos, rfl, fun _ => rfl, fun _ => rfl, fun j b h => ?_, fun b => ?_,
    fun b => ?_, fun b e he => ?_, fun g copy h => ?_, rfl, fun b source h => ?_,
    fun e inst h => ?_, rfl⟩
  · simp [Sketch.empty] at h
  · cases b <;> exact .none
  · rw [Function.marked, Function.selected, hi]
    exact .nil
  · rw [hi] at he
    simp at he
  · simp [Draft.empty] at h
  · simp [Draft.empty] at h
  · simp [Draft.empty, Builder.empty, Function.empty] at h

theorem pictured_start (src : Source) (types : TypePool) (scopes : List String) :
    (Emission.start src types scopes).Pictured src fun _ => .empty := by
  have hs : ∀ (k : Nat) (d : Draft), (Emission.start src types scopes).drafts[k]? = some d →
      d.Shows src .empty := by
    intro k d hd
    obtain ⟨name, rfl⟩ := getElem?_start hd
    exact shows_empty ..
  refine ⟨fun scope d => hs scope.val d, fun k d _ => hs k d, fun slot h => ?_,
    fun slot h => ?_⟩
  · simp [Emission.start, Ledger.empty] at h
  · simp [Emission.start, Ledger.empty] at h

def sketch (src : Source) (t : PostDominators) (n : Nat) (scope : Scope) : Sketch :=
  if (ScopeSet.first n).contains scope then
    (Route.itinerary ⟨src.func, t⟩).draw (src.plan scope) true none .empty
  else .empty

theorem sat_copyAll_pictured (t : PostDominators) (types : TypePool) (scopes : List String) :
    Act.Sat Act.Any (src.copyAll t) (Emission.start src types scopes) fun _ u =>
      u.Pictured src (src.sketch t scopes.length) := by
  refine (sat_copyAll_run t _).mono ?_
  rintro _ u ⟨-, deeds, hr, hm⟩
  have hs : Stage.Pictured src (fun _ => (.empty, [])) ⟨Emission.start src types scopes, fun _ => []⟩ :=
    ⟨pictured_start src types scopes, fun _ => rfl, fun _ _ h => by cases h⟩
  refine (hr.pictured hs).state.congr fun scope => ?_
  rw [hm, moves, sketch, Emission.start, List.size_toArray, List.length_mapIdx]
  split
  · rw [Itinerary.foldl_moves]
  · rfl

end Source

end Stagewise
