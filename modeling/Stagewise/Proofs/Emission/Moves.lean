import Stagewise.Proofs.Emission.Copying
import Stagewise.Proofs.Function.Editing
import Stagewise.Proofs.Replay.Reach
import Stagewise.Proofs.Scope.Set

/-!
Copying as a run of single moves. Whichever scopes go along on the walks of others, a scope sees the
moves of its own itinerary, in order; so what copying does to a scope is found out move by move.
-/

namespace Stagewise

inductive Move
  | visit (pred : Option BlockId) (i : InstId)
  | note (block : BlockId)
  | fork (site : BranchSite)
  | enter (first : Bool)
  | leave
  | close
  | exit (block : BlockId)
  | ret

def Move.around (site : BranchSite) (first second : List Move) : List Move :=
  .fork site :: .enter true :: (first ++ .leave :: .enter false :: (second ++ [.leave, .close]))

/-- The moves of a walk for a scope. The walk is faithful if the scope follows it through every
branch. -/
def Itinerary.moves (src : Source) (x : Scope) : Itinerary → Bool → Option BlockId → List Move
  | .join _, _, pred => pred.toList.map .exit
  | .ret block, faithful, pred => visits block pred ++ if faithful then [.ret] else []
  | .jump block next, faithful, pred => visits block pred ++ next.moves src x faithful (some block)
  | .fork site arm rest, faithful, pred =>
    visits site.block pred ++ ((if (src.wantedScopes site).contains x then
        .note site.block :: Move.around site
          ((arm site.ifTrue).moves src x faithful (some site.block))
          ((arm site.ifFalse).moves src x faithful (some site.block))
      else (arm site.ifTrue).moves src x false (some site.block) ++
        (arm site.ifFalse).moves src x false (some site.block)) ++
      rest.moves src x faithful none)
  | _, _, _ => []
where
  visits (block : BlockId) (pred : Option BlockId) : List Move :=
    ((src.func.instsOf block).filter fun i => decide (src.table.instScope i = some x)).map
      (.visit pred)

def Fork.arm (fork : Fork) (first : Bool) : Arm := if first then fork.ifTrue else fork.ifFalse

/-- The moves that draw the flow of control of a part, with the forks that are open. -/
inductive Draft.Takes (d : Draft) : List Fork → Move → Draft → List Fork → Prop
  | exit (forks : List Fork) (block : BlockId) : Takes d forks (.exit block) (d.noteExit block) forks
  | ret (forks : List Fork) : Takes d forks .ret d.ret forks
  | enter (fork : Fork) (rest : List Fork) (first : Bool) :
      Takes d (fork :: rest) (.enter first) (d.enterArm fork (fork.arm first)) (fork :: rest)
  | leave (fork : Fork) (rest : List Fork) :
      Takes d (fork :: rest) .leave (d.leaveArm fork) (fork :: rest)
  | close (fork : Fork) (rest : List Fork) : Takes d (fork :: rest) .close (d.closeFork fork) rest

/-- An instruction as a walk comes to it, with the block that control came from. -/
abbrev Arrival := Option BlockId × InstId

def Move.arrival? : Move → Option Arrival
  | .visit pred i => some (pred, i)
  | _ => none

/-- What a part has of the source, latest first: the instructions that were copied, the blocks that
control has left, and the blocks whose branches were copied. -/
structure Log where
  visits : List Arrival
  left : List BlockId
  forked : List BlockId

def Log.add (log : Log) : Move → Log
  | .visit pred i => { log with visits := (pred, i) :: log.visits }
  | .exit block => { log with left := block :: log.left }
  | .fork site => { log with forked := site.block :: log.forked }
  | _ => log

def Log.Admits (needs : Log → Move → Prop) : Log → List Move → Prop
  | _, [] => True
  | log, m :: rest => needs log m ∧ (log.add m).Admits needs rest

theorem Log.admits_append {needs : Log → Move → Prop} {log : Log} {first second : List Move} :
    log.Admits needs (first ++ second) ↔
      log.Admits needs first ∧ (first.foldl add log).Admits needs second := by
  induction first generalizing log with
  | nil => simp [Admits]
  | cons m rest ih => simp [Admits, ih, and_assoc]

section Log

variable (log : Log) (moves : List Move) {b : BlockId}

theorem Log.visits_foldl :
    (moves.foldl add log).visits.reverse = log.visits.reverse ++ moves.filterMap Move.arrival? := by
  induction moves generalizing log with
  | nil => simp
  | cons m rest ih =>
    rw [List.foldl_cons, ih]
    cases m <;> simp [add, Move.arrival?, List.filterMap_cons]

theorem Log.mem_left_foldl : b ∈ (moves.foldl add log).left ↔ b ∈ log.left ∨ .exit b ∈ moves := by
  induction moves generalizing log with
  | nil => simp
  | cons m rest ih =>
    rw [List.foldl_cons, ih]
    cases m <;> simp [add, or_assoc, or_left_comm]

theorem Log.mem_forked_foldl :
    b ∈ (moves.foldl add log).forked ↔
    b ∈ log.forked ∨ ∃ site, .fork site ∈ moves ∧ site.block = b := by
  induction moves generalizing log with
  | nil => simp
  | cons m rest ih =>
    rw [List.foldl_cons, ih]
    cases m <;> simp [add, or_assoc, or_and_right, exists_or, or_left_comm, eq_comm]

end Log

namespace Draft

section SameCode

/-- A part has the code of another one, up to its flow of control. -/
structure SameCode (d d' : Draft) : Prop where
  insts : d'.builder.func.insts = d.builder.func.insts
  entry : d'.entry = d.entry
  numBlocks_le : d.builder.func.numBlocks ≤ d'.builder.func.numBlocks
  instsOf : ∀ b, d'.builder.func.instsOf b = d.builder.func.instsOf b
  program : d'.program = d.program
  copies : d'.copies = d.copies
  globals : d'.globals = d.globals
  reads : d'.reads = d.reads

variable {d d' d'' : Draft}

theorem SameCode.refl (d : Draft) : d.SameCode d :=
  ⟨rfl, rfl, Nat.le_refl _, fun _ => rfl, rfl, rfl, rfl, rfl⟩

theorem SameCode.trans (h : d.SameCode d') (h' : d'.SameCode d'') : d.SameCode d'' :=
  ⟨h'.insts.trans h.insts, h'.entry.trans h.entry, Nat.le_trans h.numBlocks_le h'.numBlocks_le,
    fun b => (h'.instsOf b).trans (h.instsOf b), h'.program.trans h.program,
    h'.copies.trans h.copies, h'.globals.trans h.globals, h'.reads.trans h.reads⟩

theorem sameCode_newBlock (d : Draft) (joins : List (BlockId × BlockId)) :
    d.SameCode { d with builder := d.builder.newBlock.2, joins := joins } := by
  refine ⟨rfl, rfl, ?_, fun b => d.builder.func.addBlock_instsOf b, rfl, rfl, rfl, rfl⟩
  show _ ≤ d.builder.func.addBlock.2.numBlocks
  rw [Function.addBlock_numBlocks]
  exact Nat.le_succ _

theorem sameCode_joinBlock (d : Draft) (join : BlockId) : d.SameCode (d.joinBlock join).2 := by
  unfold joinBlock
  split
  · exact .refl d
  · exact sameCode_newBlock d _

theorem sameCode_armBlock (d : Draft) (site : BranchSite) (join : Option BlockId) (arm : BlockId) :
    d.SameCode (d.armBlock site join arm).2 := by
  unfold armBlock
  split
  · split
    · exact .refl d
    · exact sameCode_newBlock d _
  · exact sameCode_newBlock d _

theorem sameCode_terminate (d : Draft) (t : Terminator) (branches : List (BlockId × BlockId)) :
    d.SameCode { d with builder := d.builder.terminate t, branches := branches } :=
  ⟨rfl, rfl, Nat.le_of_eq (Function.setTerminator_numBlocks ..).symm,
    fun _ => Function.setTerminator_instsOf .., rfl, rfl, rfl, rfl⟩

theorem sameCode_terminateIfOpen (d : Draft) (t : Terminator) :
    d.SameCode { d with builder := d.builder.terminateIfOpen t } := by
  unfold Builder.terminateIfOpen
  split
  · exact .refl d
  · exact sameCode_terminate d t d.branches

theorem sameCode_openFork (d : Draft) (site : BranchSite) (cond : Value) :
    d.SameCode (d.openFork site cond).2 := by
  have ha : ∀ (d : Draft) (join : Option BlockId),
      d.SameCode ((d.armBlock site join site.ifTrue).2.armBlock site join site.ifFalse).2 :=
    fun d join => (sameCode_armBlock d site join _).trans (sameCode_armBlock _ site join _)
  unfold Draft.openFork
  cases site.join with
  | none => exact (ha d none).trans (sameCode_terminate _ _ _)
  | some join =>
    exact (sameCode_joinBlock d join).trans ((ha _ _).trans (sameCode_terminate _ _ _))

theorem Takes.sameCode {forks after : List Fork} {m : Move} (h : d.Takes forks m d' after) :
    d.SameCode d' := by
  cases h with
  | exit _ _ => exact ⟨rfl, rfl, Nat.le_refl _, fun _ => rfl, rfl, rfl, rfl, rfl⟩
  | ret _ => exact sameCode_terminateIfOpen d .ret
  | enter _ _ _ => exact ⟨rfl, rfl, Nat.le_refl _, fun _ => rfl, rfl, rfl, rfl, rfl⟩
  | leave _ _ =>
    unfold Draft.leaveArm
    split
    · split
      · exact .refl d
      · exact sameCode_terminateIfOpen d _
    · exact .refl d
  | close _ _ =>
    unfold Draft.closeFork
    split
    · exact ⟨rfl, rfl, Nat.le_refl _, fun _ => rfl, rfl, rfl, rfl, rfl⟩
    · exact .refl d

end SameCode

variable (d : Draft) (site : BranchSite) (cond : Value)

def log : Log := ⟨d.visits, d.exits.map Prod.fst, d.branches.map Prod.snd⟩

theorem openRead_log (i : InstId) (ty fieldTy : TypeId) (lanes : Option Nat) :
    (d.openRead i ty fieldTy lanes).2.log = d.log := by
  cases lanes <;> rfl

theorem joinBlock_log (join : BlockId) : (d.joinBlock join).2.log = d.log := by
  unfold joinBlock
  split <;> rfl

theorem armBlock_log (join : Option BlockId) (target : BlockId) :
    (d.armBlock site join target).2.log = d.log := by
  unfold armBlock
  split
  · split <;> rfl
  · rfl

theorem openFork_log : (d.openFork site cond).2.log = d.log.add (.fork site) := by
  have ha : ∀ d' : Draft, d'.log = d.log → Log.add d'.log (.fork site) = d.log.add (.fork site) :=
    fun _ h => by rw [h]
  unfold openFork
  cases site.join with
  | none => exact ha _ ((armBlock_log ..).trans (armBlock_log ..))
  | some join => exact ha _ ((armBlock_log ..).trans ((armBlock_log ..).trans (joinBlock_log ..)))

theorem Takes.log {d d' : Draft} {forks after : List Fork} {m : Move}
    (h : d.Takes forks m d' after) : d'.log = d.log.add m := by
  cases h with
  | exit _ _ | ret _ | enter _ _ _ => rfl
  | leave fork _ =>
    unfold leaveArm
    split
    · split <;> rfl
    · rfl
  | close fork _ =>
    unfold closeFork
    split <;> rfl

end Draft

/-- One deed of a walk: a move for a scope, a branch that is noted for some, or a loop. -/
inductive Deed
  | move (scope : Scope) (m : Move)
  | note (block : BlockId) (scopes : ScopeSet)
  | loop (block : BlockId)

def Deed.moves (x : Scope) : Deed → List Move
  | .move scope m => if scope = x then [m] else []
  | .note block scopes => if scopes.contains x then [.note block] else []
  | .loop _ => []

def Source.permitOperand (src : Source) (scope : Scope) (v : Value) : Emission.Permit where
  reads owner dst j := dst = scope ∧ v = .inst j ∧ src.table.instScope j = some owner
  reports := src.Refuses scope v

namespace Emission

variable {src : Source} {allowed : Permit} {s t u : Emission} {scope : Scope} {deeds : List Deed}
  {deed : Deed}

/-- What copying an instruction leaves alone: the laid out records, the noted branches, and in each
part the flow of control and what was visited. -/
structure Quiet (s t : Emission) : Prop where
  size : t.drafts.size = s.drafts.size
  types : t.types = s.types
  fixed : t.ledger.fixed = s.ledger.fixed
  fanout : t.fanout = s.fanout
  drafts : ∀ (k : Nat) (d' : Draft), t.drafts[k]? = some d' → ∃ d, s.drafts[k]? = some d ∧
    d'.log = d.log

theorem quiet_of_drafts_eq (hd : t.drafts = s.drafts) (ht : t.types = s.types)
    (hfi : t.ledger.fixed = s.ledger.fixed) (hf : t.fanout = s.fanout) : s.Quiet t :=
  ⟨by rw [hd], ht, hfi, hf, fun _ d' hd' => ⟨d', hd ▸ hd', rfl⟩⟩

theorem Quiet.trans (h : s.Quiet t) (h' : t.Quiet u) : s.Quiet u := by
  refine ⟨h'.size.trans h.size, h'.types.trans h.types, h'.fixed.trans h.fixed,
    h'.fanout.trans h.fanout, fun k d'' hd'' => ?_⟩
  obtain ⟨d', hd', hl'⟩ := h'.drafts k d'' hd''
  obtain ⟨d, hd, hl⟩ := h.drafts k d' hd'
  exact ⟨d, hd, hl'.trans hl⟩

theorem quiet_setDraft {d d' : Draft} (hd : s.drafts[scope.val]? = some d)
    (hl : d'.log = d.log) : s.Quiet (s.setDraft scope d') := by
  refine ⟨size_setDraft .., rfl, rfl, rfl, fun k e hk => ?_⟩
  rcases setDraft_cases hd hk with ⟨rfl, rfl⟩ | ⟨-, hk⟩
  · exact ⟨d, hd, hl⟩
  · exact ⟨e, hk, rfl⟩

theorem ReadStep.quiet (h : ReadStep src allowed s t) : s.Quiet t := by
  cases h with
  | report _ => exact quiet_of_drafts_eq rfl rfl rfl rfl
  | declareGlobal hd _ _ | declare hd _ => exact quiet_setDraft hd rfl
  | @openRead _ _ _ _ d hd _ _ _ _ =>
    exact (quiet_setDraft hd (d.openRead_log ..)).trans (quiet_of_drafts_eq rfl rfl rfl rfl)

theorem Reads.quiet (h : Reads src allowed s t) : s.Quiet t := by
  induction h with
  | refl => exact quiet_of_drafts_eq rfl rfl rfl rfl
  | tail _ hs ih => exact ih.trans hs.quiet

theorem Copied.quiet {pred : Option BlockId} {i : InstId} {inst : Inst}
    (h : Copied src allowed scope pred i inst s t) : s.Quiet t := by
  cases h with
  | emitted hr hd _ _ _ | known _ _ _ hr _ hd | missing _ _ _ hr _ hd | unsupported _ _ hr _ hd =>
    exact hr.quiet.trans (quiet_setDraft hd rfl)
  | raised _ _ _ hr he _ hr' hd _ =>
    refine hr.quiet.trans (Quiet.trans ?_ (hr'.quiet.trans (quiet_setDraft hd rfl)))
    exact quiet_setDraft he rfl
  | @array t d _ _ _ _ _ _ _ _ _ _ _ _ _ hr _ hd =>
    have hs : t.Quiet (t.setDraft scope (d.openElement i inst.ty)) := quiet_setDraft hd rfl
    exact hr.quiet.trans (hs.trans (quiet_of_drafts_eq rfl rfl rfl rfl))
  | skipped _ hr => exact hr.quiet

def log (s : Emission) (x : Scope) : Log := s.drafts[x.val]?.elim ⟨[], [], []⟩ Draft.log

theorem left_eq (s : Emission) (x : Scope) : s.left x = (s.log x).left := by
  unfold left log
  cases s.drafts[x.val]? <;> rfl

theorem Quiet.log (h : s.Quiet t) (x : Scope) : t.log x = s.log x := by
  unfold Emission.log
  cases hd' : t.drafts[x.val]? with
  | none => rw [Array.getElem?_eq_none_iff.mpr (h.size ▸ Array.getElem?_eq_none_iff.mp hd')]
  | some d' =>
    obtain ⟨d, hd, hl⟩ := h.drafts _ d' hd'
    rw [hd, Option.elim_some, Option.elim_some, hl]

theorem log_setDraft {d d' : Draft} (hd : s.drafts[scope.val]? = some d) {m : Move}
    (h : d'.log = d.log.add m) (x : Scope) :
    (s.setDraft scope d').log x = (Deed.moves x (.move scope m)).foldl Log.add (s.log x) := by
  unfold Emission.log
  by_cases hx : scope = x
  · subst hx
    simp [Deed.moves, getElem?_setDraft_self hd, hd, h]
  · simp [Deed.moves, getElem?_setDraft_ne fun h => hx (Fin.ext h.symm), hx]

structure Stage where
  state : Emission
  forks : Scope → List Fork

inductive Does (src : Source) : Deed → Stage → Stage → Prop
  | visit {s t : Emission} {forks : Scope → List Fork} {scope : Scope} {pred : Option BlockId}
      {i : InstId} {inst : Inst} {d : Draft} : src.table.instScope i = some scope →
      src.func.insts[i]? = some inst → s.drafts[scope.val]? = some d →
      Copied src (src.permit s scope pred i inst) scope pred i inst
        (s.setDraft scope (d.noteVisit pred i)) t →
      Does src (.move scope (.visit pred i)) ⟨s, forks⟩ ⟨t, forks⟩
  | fork {s t : Emission} {forks : Scope → List Fork} {scope : Scope} {site : BranchSite}
      {cond : Value} {d : Draft} : Reads src (src.permitOperand scope site.cond) s t →
      Denotes src t scope site.cond cond → t.drafts[scope.val]? = some d →
      Does src (.move scope (.fork site)) ⟨s, forks⟩
        ⟨t.setDraft scope (d.openFork site cond).2,
          Function.update forks scope ((d.openFork site cond).1 :: forks scope)⟩
  | steer {s : Emission} {forks : Scope → List Fork} {after : List Fork} {scope : Scope} {m : Move}
      {d d' : Draft} : s.drafts[scope.val]? = some d → d.Takes (forks scope) m d' after →
      Does src (.move scope m) ⟨s, forks⟩
        ⟨s.setDraft scope d', Function.update forks scope after⟩
  | note {s : Emission} {forks : Scope → List Fork} {block : BlockId} {scopes : ScopeSet} :
      scopes.isEmpty = false → Does src (.note block scopes) ⟨s, forks⟩
        ⟨{ s with fanout := FanOut.note block scopes s.fanout }, forks⟩
  | loop {s : Emission} {forks : Scope → List Fork} (block : BlockId) :
      Does src (.loop block) ⟨s, forks⟩
        ⟨{ s with problems := Problem.note s.problems (.unsupportedLoop block) }, forks⟩

inductive Run (src : Source) : List Deed → Stage → Stage → Prop
  | nil (s : Stage) : Run src [] s s
  | cons {deed : Deed} {deeds : List Deed} {s t u : Stage} : Does src deed s t →
      Run src deeds t u → Run src (deed :: deeds) s u

theorem Run.append {deeds deeds' : List Deed} {s t u : Stage} (h : Run src deeds s t)
    (h' : Run src deeds' t u) : Run src (deeds ++ deeds') s u := by
  induction h with
  | nil => exact h'
  | cons hdo _ ih => exact .cons hdo (ih h')

theorem Run.split {deeds deeds' : List Deed} {s u : Stage} (h : Run src (deeds ++ deeds') s u) :
    ∃ t, Run src deeds s t ∧ Run src deeds' t u := by
  induction deeds generalizing s with
  | nil => exact ⟨s, .nil s, h⟩
  | cons deed rest ih =>
    cases h with
    | cons hdo hr =>
      obtain ⟨t, hf, hs⟩ := ih hr
      exact ⟨t, .cons hdo hf, hs⟩

theorem Does.log {s t : Stage} (h : Does src deed s t) (x : Scope) :
    t.state.log x = (deed.moves x).foldl Log.add (s.state.log x) := by
  cases h with
  | visit _ _ hd hc => exact (hc.quiet.log x).trans (log_setDraft hd rfl x)
  | fork hr _ hd =>
    rw [← hr.quiet.log]
    exact log_setDraft hd (Draft.openFork_log ..) x
  | steer hd ht => exact log_setDraft hd ht.log x
  | note _ =>
    rw [Deed.moves]
    split <;> rfl
  | loop _ => rfl

theorem Does.size {s t : Stage} (h : Does src deed s t) :
    t.state.drafts.size = s.state.drafts.size := by
  cases h with
  | visit _ _ _ hc => exact hc.quiet.size.trans (size_setDraft ..)
  | fork hr _ _ => exact (size_setDraft ..).trans hr.quiet.size
  | steer _ _ => exact size_setDraft ..
  | note _ | loop _ => rfl

theorem Run.log {s t : Stage} (h : Run src deeds s t) (x : Scope) :
    t.state.log x = (deeds.flatMap (Deed.moves x)).foldl Log.add (s.state.log x) := by
  induction h with
  | nil => rfl
  | cons hdo _ ih => rw [ih, hdo.log, List.flatMap_cons, List.foldl_append]

theorem Run.size {s t : Stage} (h : Run src deeds s t) :
    t.state.drafts.size = s.state.drafts.size := by
  induction h with
  | nil => rfl
  | cons hdo _ ih => exact ih.trans hdo.size

/-- From one state to another, each scope sees some moves, and the same forks are open after them. -/
def Performs (src : Source) (forks : Scope → List Fork) (log : Scope → List Move)
    (s t : Emission) : Prop :=
  ∃ deeds, Run src deeds ⟨s, forks⟩ ⟨t, forks⟩ ∧ ∀ x, deeds.flatMap (Deed.moves x) = log x

/-- How faults are kept out: by what holds of a state, and by what a move needs of the moves before
it. -/
structure Guard (src : Source) where
  fails : Fault → Prop
  holds : Emission → Prop
  needs : Scope → Log → Move → Prop
  draft : ∀ {s x m}, holds s → needs x (s.log x) m → Act.Tolerant fails ∨ x.val < s.drafts.size
  visit : ∀ {s x pred i}, src.table.instScope i = some x → holds s →
    needs x (s.log x) (.visit pred i) →
    Act.Tolerant fails ∨ ∃ inst, src.func.insts[i]? = some inst ∧ src.CanCopy s x pred i inst
  fork : ∀ {s x site}, holds s → needs x (s.log x) (.fork site) →
    Act.Tolerant fails ∨ x.val < s.drafts.size ∧ src.Ready s x site.cond
  keeps : ∀ {deed s t}, Does src deed s t →
    (∀ x, (s.state.log x).Admits (needs x) (deed.moves x)) → holds s.state → holds t.state

def Guard.none (src : Source) : Guard src where
  fails := Act.Any
  holds _ := True
  needs _ _ _ := True
  draft _ _ := .inl Act.tolerant_any
  visit _ _ _ := .inl Act.tolerant_any
  fork _ _ := .inl Act.tolerant_any
  keeps _ _ _ := trivial

theorem Guard.admits_none {log : Log} {moves : List Move} {x : Scope} :
    log.Admits ((Guard.none src).needs x) moves := by
  induction moves generalizing log with
  | nil => trivial
  | cons m rest ih => exact ⟨trivial, ih⟩

theorem Guard.run (g : Guard src) {s t : Stage} (h : Run src deeds s t) (hs : g.holds s.state)
    (hl : ∀ x, (s.state.log x).Admits (g.needs x) (deeds.flatMap (Deed.moves x))) :
    g.holds t.state := by
  induction h with
  | nil => exact hs
  | cons hdo _ ih =>
    simp only [List.flatMap_cons, Log.admits_append] at hl
    exact ih (g.keeps hdo (fun x => (hl x).1) hs) fun x => hdo.log x ▸ (hl x).2

theorem Guard.performs (g : Guard src) {forks : Scope → List Fork} {log log' : Scope → List Move}
    (h : Performs src forks log s t) (hs : g.holds s)
    (hl : ∀ x, (s.log x).Admits (g.needs x) (log x ++ log' x)) :
    g.holds t ∧ ∀ x, (t.log x).Admits (g.needs x) (log' x) := by
  obtain ⟨deeds, hr, hm⟩ := h
  simp only [Log.admits_append] at hl
  refine ⟨g.run hr hs fun x => hm x ▸ (hl x).1, fun x => ?_⟩
  rw [show t.log x = _ from hr.log x, hm]
  exact (hl x).2

end Emission

namespace Source

open Emission

variable {src : Source} {g : Guard src} {scope : Scope} {found found' : Prop}
  {forks : Scope → List Fork} {log log' : Scope → List Move} {update : Draft → Draft}
  {pred : Option BlockId} {faithful : Bool} {it : Itinerary} {x : Scope}

/-- A computation that goes through some moves for each scope, if it comes to an end; and that it does
so shows that something was found. -/
def Tells (g : Guard src) (forks : Scope → List Fork) (found : Prop) (log : Scope → List Move)
    (x : Act Emission Unit) : Prop :=
  ∀ s, g.holds s → (∀ y, (s.log y).Admits (g.needs y) (log y)) →
    Act.Sat g.fails x s fun _ t => found ∧ Performs src forks log s t

theorem tells_pure : Tells g forks True (fun _ => []) (pure ()) :=
  fun _ _ _ => ⟨trivial, [], .nil _, fun _ => rfl⟩

theorem Tells.bind {x y : Act Emission Unit} (hx : Tells g forks found log x)
    (hy : Tells g forks found' log' y) :
    Tells g forks (found ∧ found') (fun x => log x ++ log' x) (do x; y) := by
  intro s hs ha
  rw [Act.sat_bind]
  refine (hx s hs fun y => (Log.admits_append.mp (ha y)).1).mono ?_
  rintro _ t ⟨hf, hp⟩
  obtain ⟨ht, hr⟩ := g.performs hp hs ha
  obtain ⟨deeds, hru, hl⟩ := hp
  refine (hy t ht hr).mono ?_
  rintro _ u ⟨hf', deeds', hr', hl'⟩
  exact ⟨⟨hf, hf'⟩, deeds ++ deeds', hru.append hr',
    fun x => by rw [List.flatMap_append, hl, hl']⟩

theorem Tells.congr {x : Act Emission Unit} (hx : Tells g forks found log x)
    (hf : found → found') (he : ∀ x, log x = log' x) : Tells g forks found' log' x := by
  obtain rfl : log = log' := funext he
  exact fun s hs ha => (hx s hs ha).mono fun _ t ⟨h, hp⟩ => ⟨hf h, hp⟩

theorem tells_steer {m : Move} (h : ∀ d : Draft, d.Takes (forks scope) m (update d) (forks scope)) :
    Tells g forks True (fun x => if scope = x then [m] else []) (updateDraft scope update) := by
  intro s hs ha
  rw [sat_updateDraft]
  refine ⟨fun d hd => ⟨trivial, [.move scope m], ?_, fun x => List.append_nil _⟩, fun hn => ?_⟩
  · have hdo : Does src (.move scope m) ⟨s, forks⟩ _ := .steer hd (h d)
    rw [Function.update_eq_self] at hdo
    exact .cons hdo (.nil _)
  · have hne : g.needs scope (s.log scope) m := by simpa [Log.Admits] using ha scope
    exact Act.fault_of_array_none (g.draft hs hne) hn

theorem tells_forM {m : Move} (h : ∀ (d : Draft) after, d.Takes after m (update d) after)
    {scopes : List Scope} (hn : scopes.Nodup) :
    Tells g forks True (fun x => if x ∈ scopes then [m] else [])
      (scopes.forM fun scope => updateDraft scope update) := by
  induction scopes with
  | nil => exact tells_pure.congr id fun x => by simp
  | cons scope rest ih =>
    obtain ⟨hno, hn⟩ := List.nodup_cons.mp hn
    refine Tells.congr (Tells.bind (tells_steer fun d => h d _) (ih hn)) (fun _ => trivial)
      fun x => ?_
    by_cases hx : scope = x
    · subst hx
      simp [hno]
    · simp [hx, Ne.symm hx]

theorem tells_visitInst (ctx : Coverage) (pred : Option BlockId) (i : InstId) :
    Tells g forks True (fun x => if ctx.scopes.contains x ∧ src.table.instScope i = some x then
      [.visit pred i] else []) (src.visitInst ctx pred i) := by
  unfold visitInst
  cases hsc : src.table.instScope i with
  | none => exact tells_pure.congr id fun x => by simp
  | some scope =>
    simp only
    split
    · next hin =>
      intro s hs ha
      have hn : g.needs scope (s.log scope) (.visit pred i) := by
        simpa [Log.Admits, hin] using ha scope
      refine (sat_copyInst (fun inst _ => src.mayRead_permit s scope pred i inst)
        (g.visit hsc hs hn)).mono ?_
      rintro _ t ⟨inst, d, hi, hd, hc⟩
      refine ⟨trivial, [.move scope (.visit pred i)], .cons (.visit hsc hi hd hc) (.nil _),
        fun x => ?_⟩
      by_cases hx : scope = x
      · subst hx
        simp [Deed.moves, hin]
      · simp [Deed.moves, hx]
    · next ho =>
      refine tells_pure.congr id fun x => (if_neg ?_).symm
      rintro ⟨hin, hx⟩
      exact ho (Option.some.inj hx ▸ hin)

theorem tells_visitInsts (ctx : Coverage) (pred : Option BlockId) (block : BlockId) :
    Tells g forks True (fun x => if ctx.scopes.contains x then
      Itinerary.moves.visits src x block pred else [])
      ((src.func.instsOf block).forM (src.visitInst ctx pred)) := by
  unfold Itinerary.moves.visits
  induction src.func.instsOf block with
  | nil => exact tells_pure.congr id fun x => by simp
  | cons i rest ih =>
    refine Tells.congr (Tells.bind (tells_visitInst ctx pred i) ih) (fun _ => trivial) fun x => ?_
    by_cases hin : ctx.scopes.contains x = true
    · by_cases hx : src.table.instScope i = some x <;> simp [hin, hx]
    · simp [hin]

theorem tells_copyArm {fork : Fork} {rest : List Fork} (hf : forks scope = fork :: rest)
    (first : Bool) {walk : Act Emission Unit} (h : Tells g forks found log walk) :
    Tells g forks found (fun x => if scope = x then .enter first :: (log x ++ [.leave]) else log x)
      (copyArm scope fork (fork.arm first) walk) := by
  have he : Tells g forks True _ (updateDraft scope (·.enterArm fork (fork.arm first))) :=
    tells_steer fun d => by rw [hf]; exact .enter fork rest first
  have hl : Tells g forks True _ (updateDraft scope (·.leaveArm fork)) :=
    tells_steer fun d => by rw [hf]; exact .leave fork rest
  refine (he.bind (h.bind hl)).congr (fun h => h.2.1) fun x => ?_
  split <;> simp

/-- Copying a branch into a scope walks both arms, also for the scopes that go along. -/
theorem tells_fanOut {site : BranchSite} {walkArm : BlockId → Act Emission Unit}
    (hT : ∀ forks, Tells g forks found log (walkArm site.ifTrue))
    (hF : ∀ forks, Tells g forks found' log' (walkArm site.ifFalse)) :
    Tells g forks (found ∧ found') (fun x => if scope = x then Move.around site (log x) (log' x)
      else log x ++ log' x) (src.fanOut site scope walkArm) := by
  intro s hs ha
  unfold fanOut
  rw [Act.sat_bind]
  have hpe : src.Allows (src.permitOperand scope site.cond) scope site.cond :=
    ⟨fun _ _ hi how _ => ⟨rfl, hi, how⟩, fun _ hp => hp⟩
  have hsp : ∀ x, (if scope = x then Move.around site (log x) (log' x) else log x ++ log' x)
      = Deed.moves x (.move scope (.fork site)) ++ ((if scope = x then
          .enter true :: (log x ++ [.leave]) else log x) ++ ((if scope = x then
          .enter false :: (log' x ++ [.leave]) else log' x) ++ Deed.moves x (.move scope .close))) := by
    intro x
    by_cases hx : scope = x <;> simp [Deed.moves, hx, Move.around]
  simp only [hsp] at ha
  have hn : g.needs scope (s.log scope) (.fork site) := by
    simpa [Log.Admits, Deed.moves] using (Log.admits_append.mp (ha scope)).1
  have hr := g.fork hs hn
  refine (sat_getValue hpe hr).mono ?_
  rintro cond t ⟨hre, hco⟩
  rw [Act.sat_bind, sat_editDraft]
  refine ⟨fun d hd => ?_, Act.fault_of_array_none (hr.imp_right fun h => hre.quiet.size ▸ h.1)⟩
  -- the branch is the innermost one while its arms are walked, and is closed after them
  have ho : Does src (.move scope (.fork site)) ⟨s, forks⟩ _ := .fork hre hco hd
  generalize hfo : (d.openFork site cond).1 = fork at ho ⊢
  have ht : Function.update forks scope (fork :: forks scope) scope = fork :: forks scope :=
    Function.update_self ..
  obtain ⟨hu, ha⟩ : g.holds _ ∧ _ := ⟨g.keeps ho (fun x => (Log.admits_append.mp (ha x)).1) hs,
    fun x => ho.log x ▸ (Log.admits_append.mp (ha x)).2⟩
  rw [Act.sat_bind]
  refine (tells_copyArm ht true (hT _) _ hu fun x => (Log.admits_append.mp (ha x)).1).mono ?_
  rintro _ u ⟨hf, hfi⟩
  obtain ⟨hu, ha⟩ := g.performs hfi hu ha
  obtain ⟨deeds, hru, hl⟩ := hfi
  rw [Act.sat_bind]
  refine (tells_copyArm ht false (hF _) u hu fun x => (Log.admits_append.mp (ha x)).1).mono ?_
  rintro _ v ⟨hf', hse⟩
  obtain ⟨hv, ha⟩ := g.performs hse hu ha
  obtain ⟨deeds', hr', hl'⟩ := hse
  have hn : g.needs scope (v.log scope) .close := by
    simpa [Log.Admits, Deed.moves] using ha scope
  rw [sat_updateDraft]
  refine ⟨fun e he => ⟨⟨hf, hf'⟩,
    .move scope (.fork site) :: (deeds ++ (deeds' ++ [.move scope .close])), ?_, fun x => ?_⟩,
    Act.fault_of_array_none (g.draft hv hn)⟩
  · have hc : Does src (.move scope .close) ⟨v, Function.update forks scope (fork :: forks scope)⟩ _ :=
      .steer he (by rw [ht]; exact .close fork (forks scope))
    rw [Function.update_idem, Function.update_eq_self] at hc
    exact .cons ho (hru.append (hr'.append (.cons hc (.nil _))))
  · simp only [List.flatMap_cons, List.flatMap_append, hl, hl', List.flatMap_nil, hsp,
      List.append_nil]

section Branches

variable {site : BranchSite} {walkArm : Coverage → BlockId → Act Emission Unit} {P : BlockId → Prop}
  {L : BlockId → Scope → Bool → List Move}

/-- An arm, walked in any coverage, is gone through for the scopes of the coverage. -/
def TellsArm (g : Guard src) (walkArm : Coverage → BlockId → Act Emission Unit) (P : BlockId → Prop)
    (L : BlockId → Scope → Bool → List Move) (a : BlockId) : Prop :=
  ∀ (ctx : Coverage) forks, Tells g forks (P a) (fun x => if ctx.scopes.contains x then
    L a x (ctx.faithful.contains x) else []) (walkArm ctx a)

/-- Each scope that copies a branch walks its arms once, and the riders go along with one of them.
-/
theorem tells_fanOutAll (hT : TellsArm g walkArm P L site.ifTrue)
    (hF : TellsArm g walkArm P L site.ifFalse) (faithful riders : ScopeSet) {scopes : List Scope}
    (hn : scopes.Nodup) (hlt : ∀ scope ∈ scopes, scope.val < Scope.limit)
    (hri : ∀ scope, riders.contains scope = true → scope ∉ scopes ∧ scopes ≠ []) :
    Tells g forks (scopes ≠ [] → P site.ifTrue ∧ P site.ifFalse) (fun x =>
      if x ∈ scopes then Move.around site (L site.ifTrue x (faithful.contains x))
        (L site.ifFalse x (faithful.contains x))
      else if riders.contains x then L site.ifTrue x false ++ L site.ifFalse x false else [])
      (src.fanOutAll site faithful walkArm riders scopes) := by
  induction scopes generalizing riders with
  | nil =>
    refine tells_pure.congr (fun _ h => absurd rfl h) fun x => ?_
    have hno : ¬riders.contains x = true := fun h => (hri x h).2 rfl
    simp [hno]
  | cons scope rest ih =>
    obtain ⟨hnot, hn⟩ := List.nodup_cons.mp hn
    have hse : (ScopeSet.single scope).contains scope = true := by
      simp [ScopeSet.contains_single, hlt scope (by simp)]
    have hf : Tells g forks _ _ (src.fanOut site scope (walkArm
        ⟨(ScopeSet.single scope).union riders, faithful.inter (.single scope)⟩)) :=
      tells_fanOut (hT _) (hF _)
    have hre := ih .empty hn (fun x hx => hlt x (by simp [hx])) fun x hx => by simp at hx
    refine (hf.bind hre).congr (fun h _ => h.1) fun x => ?_
    by_cases hx : scope = x
    · subst hx
      simp [hnot, hse]
    · have hs : (ScopeSet.single scope).contains x = false := by
        simp [ScopeSet.contains_single, hx]
      by_cases hm : x ∈ rest
      · have hr : ¬riders.contains x = true :=
          fun h => (hri x h).1 (List.mem_cons_of_mem _ hm)
        simp [hx, hs, hm, hr]
      · by_cases hr : riders.contains x = true <;>
          simp [hx, Ne.symm hx, hs, hm, hr]

/-- A scope that wants a branch sees it around its arms, and any other scope just the arms. -/
theorem tells_copyBranch (hT : TellsArm g walkArm P L site.ifTrue)
    (hF : TellsArm g walkArm P L site.ifFalse) (ctx : Coverage) :
    Tells g forks (P site.ifTrue ∧ P site.ifFalse) (fun x => if ctx.scopes.contains x then
      if (src.wantedScopes site).contains x then
        .note site.block :: Move.around site (L site.ifTrue x (ctx.faithful.contains x))
          (L site.ifFalse x (ctx.faithful.contains x))
      else L site.ifTrue x false ++ L site.ifFalse x false
      else []) (src.copyBranch ctx site walkArm) := by
  unfold copyBranch
  simp only
  split
  · next he =>
    refine ((hT { ctx with faithful := .empty } _).bind
      (hF { ctx with faithful := .empty } _)).congr id fun x => ?_
    have hn := ScopeSet.isEmpty_iff.mp he x
    rw [ScopeSet.contains_inter] at hn
    by_cases hin : ctx.scopes.contains x = true
    · have hw : (src.wantedScopes site).contains x = false := by simpa [hin] using hn
      simp [hin, hw]
    · simp [hin]
  · next hf =>
    have hm : ∀ scope, scope ∈ ((src.wantedScopes site).inter ctx.scopes).toList ↔
        (src.wantedScopes site).contains scope = true ∧ ctx.scopes.contains scope = true :=
      fun _ => ScopeSet.mem_toList_inter
    have hne := ScopeSet.toList_ne_nil hf
    have ha := @tells_fanOutAll src g forks site walkArm P L hT hF ctx.faithful
      (ctx.scopes.diff ((src.wantedScopes site).inter ctx.scopes)) _ (ScopeSet.nodup_toList _)
      (fun scope hs => ScopeSet.lt_of_contains ((hm scope).mp hs).2)
      fun scope hs => by
        refine ⟨fun hin => ?_, hne⟩
        obtain ⟨hw, hc⟩ := (hm scope).mp hin
        simp [hw, hc] at hs
    have hno : Tells g forks True
        (fun x => if ((src.wantedScopes site).inter ctx.scopes).contains x then
          [.note site.block] else [])
        (modify fun s : Emission => { s with
          fanout := FanOut.note site.block ((src.wantedScopes site).inter ctx.scopes) s.fanout }) :=
      fun s _ _ => ⟨trivial, [.note site.block _], .cons (.note (by simpa using hf)) (.nil _),
        fun x => List.append_nil _⟩
    refine (hno.bind ha).congr (fun h => h.2 hne) fun x => ?_
    simp only [hm, ScopeSet.contains_diff, ScopeSet.contains_inter]
    cases (src.wantedScopes site).contains x <;> cases ctx.scopes.contains x <;> simp

end Branches

/-- A walk tells each scope the moves of its itinerary, by induction on the itinerary. -/
theorem tells_walk (it : Itinerary) (ctx : Coverage) (pred : Option BlockId)
    (forks : Scope → List Fork) (hf : Act.Tolerant g.fails ∨ it.Found) :
    Tells g forks it.Found (fun x => if ctx.scopes.contains x then
      it.moves src x (ctx.faithful.contains x) pred else []) (it.walk src.func src.copier ctx pred) := by
  induction it generalizing ctx pred forks with
  | lost => exact fun _ _ _ => hf.elim (· _) False.elim
  | done => exact tells_pure.congr id fun x => by simp [Itinerary.moves]
  | join block =>
    cases pred with
    | none => exact tells_pure.congr id fun x => by simp [Itinerary.moves]
    | some q =>
      have hal : Tells g forks True _
          (ctx.scopes.toList.forM fun scope => updateDraft scope (·.noteExit q)) :=
        tells_forM (fun d after => .exit after q) (ScopeSet.nodup_toList _)
      exact hal.congr id fun x => by simp [Itinerary.moves, ScopeSet.mem_toList]
  | loop block =>
    have hl : Tells g forks True (fun _ => []) (src.copier.onLoop ctx block) :=
      fun s _ _ => ⟨trivial, [.loop block], .cons (.loop block) (.nil _), fun x => rfl⟩
    exact hl.congr id fun x => by simp [Itinerary.moves]
  | ret block =>
    have hal : Tells g forks True _ ((ctx.scopes.inter ctx.faithful).toList.forM fun scope =>
        updateDraft scope Draft.ret) :=
      tells_forM (fun d after => .ret after) (ScopeSet.nodup_toList _)
    refine ((tells_visitInsts ctx pred block).bind hal).congr (fun _ => trivial) fun x => ?_
    simp only [Itinerary.moves, ScopeSet.mem_toList, ScopeSet.contains_inter]
    cases ctx.scopes.contains x <;> simp
  | jump block next ih =>
    refine ((tells_visitInsts ctx pred block).bind (ih ctx (some block) forks hf)).congr
      (fun h => h.2) fun x => ?_
    cases ctx.scopes.contains x <;> simp [Itinerary.moves]
  | fork site arm rest ihArm ihRest =>
    have har : ∀ a, Act.Tolerant g.fails ∨ (arm a).Found → TellsArm g
        (fun ctx a => (arm a).walk src.func src.copier ctx (some site.block))
        (fun a => (arm a).Found) (fun a x b => (arm a).moves src x b (some site.block)) a :=
      fun a ha ctx forks => ihArm a ctx (some site.block) forks ha
    have hb : Tells g forks _ _ (src.copyBranch ctx site _) :=
      tells_copyBranch (har site.ifTrue (hf.imp_right fun h => h.1))
        (har site.ifFalse (hf.imp_right fun h => h.2.1)) ctx
    refine ((tells_visitInsts ctx pred site.block).bind
      (hb.bind (ihRest ctx none forks (hf.imp_right fun h => h.2.2)))).congr
      (fun h => ⟨h.2.1.1, h.2.1.2, h.2.2⟩) fun x => ?_
    cases ctx.scopes.contains x <;> simp [Itinerary.moves]

theorem mem_moves_fork {site : BranchSite} :
    .fork site ∈ it.moves src x faithful pred ↔
      site ∈ it.sites ∧ (src.wantedScopes site).contains x = true := by
  have hv : ∀ block pred, .fork site ∉ Itinerary.moves.visits src x block pred := by
    simp [Itinerary.moves.visits]
  induction it generalizing faithful pred with
  | lost | done | loop _ => simp [Itinerary.moves, Itinerary.sites]
  | join block => cases pred <;> simp [Itinerary.moves, Itinerary.sites]
  | ret block => cases faithful <;> simp [Itinerary.moves, Itinerary.sites, hv]
  | jump block next ih => simp [Itinerary.moves, Itinerary.sites, hv, ih]
  | fork other arm rest ihArm ihRest =>
    simp only [Itinerary.moves, List.mem_append, hv, false_or, ihRest, Itinerary.sites,
      List.mem_cons]
    split
    · next hw =>
      simp only [Move.around, List.mem_cons, List.mem_append, ihArm, reduceCtorEq, false_or,
        Move.fork.injEq, List.not_mem_nil, or_false]
      constructor
      · rintro ((rfl | h) | h) <;> tauto
      · tauto
    · next hw =>
      simp only [List.mem_append, ihArm]
      constructor
      · tauto
      · rintro ⟨rfl | h, hw'⟩
        · exact absurd hw' hw
        · tauto

theorem mem_moves_note {b : BlockId} :
    .note b ∈ it.moves src x faithful pred ↔
      ∃ site, .fork site ∈ it.moves src x faithful pred ∧ site.block = b := by
  induction it generalizing faithful pred with
  | lost | done | loop _ => simp [Itinerary.moves]
  | join block => cases pred <;> simp [Itinerary.moves]
  | ret block => cases faithful <;> simp [Itinerary.moves, Itinerary.moves.visits]
  | jump block next ih => simp [Itinerary.moves, Itinerary.moves.visits, ih]
  | fork other arm rest ihArm ihRest =>
    simp only [Itinerary.moves, Itinerary.moves.visits, List.mem_append, List.mem_map, reduceCtorEq,
      and_false, exists_false, false_or, ihRest]
    split
    · simp [Move.around, ihArm, or_and_right, exists_or, eq_comm]
    · simp only [List.mem_append, ihArm, or_and_right, exists_or]

def moves (src : Source) (tree : PostDominators) (n : Nat) (x : Scope) : List Move :=
  if (ScopeSet.first n).contains x then
    (Route.itinerary ⟨src.func, tree⟩).moves src x true none
  else []

theorem tells_copyAll (g : Guard src) (tree : PostDominators) {s : Emission} (hs : g.holds s)
    (ha : ∀ x, (s.log x).Admits (g.needs x) (src.moves tree s.drafts.size x))
    (hf : Act.Tolerant g.fails ∨ (Route.itinerary ⟨src.func, tree⟩).Found) :
    Act.Sat g.fails (src.copyAll tree) s fun _ u => (Route.itinerary ⟨src.func, tree⟩).Found ∧
      Performs src (fun _ => []) (src.moves tree s.drafts.size) s u := by
  unfold copyAll
  rw [Act.sat_bind, Act.sat_get,
    show src.func.entry = (Route.mk src.func tree).func.entry from rfl, Route.walk_eq_walk]
  refine (tells_walk _ _ none _ hf).congr id (fun x => ?_) s hs ha
  unfold moves
  split
  · next hin => rw [hin]
  · rfl

theorem sat_copyAll_run (tree : PostDominators) (s : Emission) :
    Act.Sat Act.Any (src.copyAll tree) s fun _ u => (Route.itinerary ⟨src.func, tree⟩).Found ∧
      Performs src (fun _ => []) (src.moves tree s.drafts.size) s u :=
  tells_copyAll (.none src) tree trivial (fun _ => Guard.admits_none) (.inl Act.tolerant_any)

end Source

end Stagewise
