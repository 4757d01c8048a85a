import Stagewise.Proofs.Classification.Forcing
import Stagewise.Proofs.Classification.Requests

namespace Stagewise

/-- The requests whose effect has not been undone, and those of each snapshot. -/
structure Journal where
  current : List Request
  saved : List (List Request)

def Journal.note (j : Journal) : Request → Journal
  | .snapshot => ⟨j.current, j.saved ++ [j.current]⟩
  | .restore k => ⟨j.saved[k]?.getD j.current, j.saved⟩
  | r => ⟨j.current ++ [r], j.saved⟩

def Request.inForce (requests : List Request) : List Request :=
  (requests.foldl Journal.note ⟨[], []⟩).current

namespace Classifier

variable {c : Classifier} {w : Work} {work stack : List Work} {t t' : Classification}
  {E E' : BlockId → Scope → Prop} {b q : BlockId} {x : Scope} {requests : List Request}
  {s s' : Session} {r : Request} {j : Journal}

/-- A request demands a block in a scope: a sink the block of a call of its function, and that of a
store to its binding if control may miss the block; and a block is asked for by name. -/
def Demands (c : Classifier) : Request → BlockId → Scope → Prop
  | .sink name scope _, b, x => x = scope ∧ ∃ (i : InstId) (inst : Inst),
      c.func.insts[i]? = some inst ∧ inst.block = b ∧
      ((∃ callee args, inst.op = .call (.direct callee) args ∧
          c.program.declNamed? name = some callee) ∨
        ∃ v addr g, inst.op = .store v addr ∧ addr.global? = some g ∧
          c.program.globalNamed? name = some g ∧
          c.postDominators.postDominates b c.func.entry = false)
  | .block b' _ force, b, x => b = b' ∧ force = some x
  | _, _, _ => False

/-- A block is demanded in a scope, or decides, directly or through others, about one that is. -/
def Demanded (c : Classifier) (E : BlockId → Scope → Prop) (b : BlockId) (x : Scope) : Prop :=
  ∃ w, E w x ∧ Relation.ReflTransGen (fun b q => q ∈ c.parents b) w b

theorem Demanded.parent (h : c.Demanded E b x) (hq : q ∈ c.parents b) : c.Demanded E q x := by
  obtain ⟨w, hw, hp⟩ := h
  exact ⟨w, hw, hp.tail hq⟩

theorem Demanded.mono (h : c.Demanded E b x) (hs : ∀ b x, E b x → E' b x) : c.Demanded E' b x := by
  obtain ⟨w, hw, hp⟩ := h
  exact ⟨w, hs w x hw, hp⟩

/-- Scopes on their way to a block, and those that it has, are demanded; a branch is repeated only in
scopes of blocks that it decides about. -/
structure Traced (c : Classifier) (E : BlockId → Scope → Prop) (stack : List Work)
    (t : Classification) : Prop where
  forced : ∀ b x, (t.forcedAt b).contains x = true → c.Demanded E b x
  guards : ∀ q x, (t.guardsAt q).contains x = true →
    ∃ b, q ∈ c.parents b ∧ (t.forcedAt b).contains x = true
  stack : ∀ w ∈ stack, ∀ b x, w.node = .block b → w.force.contains x = true → c.Demanded E b x

/-- Looking at a block takes scopes only to the branches that decide about it. -/
theorem Visits.traced (h : c.Visits t w work t') (hf : t.Fits c.program c.func)
    (ht : c.Traced E (w :: stack) t) :
    c.Traced E (work.reverse ++ stack) t' := by
  cases h with
  | known _ _ => exact ⟨ht.forced, ht.guards, fun w' hw' => ht.stack w' (List.mem_cons_of_mem _ hw')⟩
  | learn _ hl =>
    have hu : ∀ b y, w.node = .block b → ((t.forcedAt b).union w.force).contains y = true →
        c.Demanded E b y := by
      intro b y hn hy
      rw [ScopeSet.contains_union, Bool.or_eq_true] at hy
      exact hy.elim (ht.forced b y) (ht.stack w List.mem_cons_self b y hn)
    refine ⟨fun b x hb => ?_, fun q x hq => ?_, fun w' hw' b x hn hx => ?_⟩
    · rw [hl.forced] at hb
      split at hb
      · next hs => exact hu b x hs.1 hb
      · exact ht.forced b x hb
    · rcases (hl.guards q x).mp hq with hq | ⟨-, b, hn, hq, hx⟩
      · obtain ⟨d, hd, hx⟩ := ht.guards q x hq
        refine ⟨d, hd, ?_⟩
        rw [hl.forced]
        split
        · rw [ScopeSet.contains_union, hx, Bool.true_or]
        · exact hx
      · have hlt : b < t.forced.size := by
          have := (hf.has_iff _).mp hl.has
          rw [hn] at this
          exact hf.forced ▸ this
        exact ⟨b, hq, by rw [hl.forced, if_pos ⟨hn, hlt⟩]; exact hx⟩
    · rcases List.mem_append.mp hw' with hw' | hw'
      · -- only a block passes scopes on, and to the branches that decide about it
        have hle := hl.nodes ▸ List.mem_map_of_mem (f := Work.node) (List.mem_reverse.mp hw')
        rw [hl.force w' (List.mem_reverse.mp hw'), hn] at hx
        rw [hn] at hle
        split at hx
        · next d _ hd _ =>
          rw [hd] at hle
          rcases List.mem_append.mp hle with hc | hp
          · obtain ⟨v, -, hv⟩ := Option.bind_eq_some_iff.mp (Option.mem_toList.mp hc)
            cases v <;> cases hv
          · obtain ⟨q, hq, heq⟩ := List.mem_map.mp hp
            obtain rfl := Node.block.inj heq
            exact (hu d x hd hx).parent hq
        · simp at hx
      · exact ht.stack w' (List.mem_cons_of_mem _ hw') b x hn hx

theorem Advances.traced {rest : List Work} (h : c.Advances (stack, t) (rest, t'))
    (hf : t.Fits c.program c.func)
    (ht : c.Traced E stack t) : c.Traced E rest t' := by
  have key : t'.Fits c.program c.func ∧ c.Traced E rest t' :=
    h.invariant (P := fun stack t => t.Fits c.program c.func ∧ c.Traced E stack t)
      (fun _ _ _ _ _ hv ht => ⟨hv.fits ht.1, hv.traced ht.1 ht.2⟩) ⟨hf, ht⟩
  exact key.2

/-- The scopes of blocks and branches are those that some demands lead to. -/
structure Exact (c : Classifier) (E : BlockId → Scope → Prop) (t : Classification) : Prop where
  fits : t.Fits c.program c.func
  guarding : c.Guarding t []
  traced : c.Traced E [] t
  demanded : ∀ b x, E b x → (t.forcedAt b).contains x = true

theorem Exact.forcedAt_iff (h : c.Exact E t) :
    (t.forcedAt b).contains x = true ↔ c.Demanded E b x := by
  constructor
  · exact h.traced.forced b x
  rintro ⟨w, hw, hp⟩
  induction hp with
  | refl => exact h.demanded w x hw
  | tail _ hq ih => exact ((h.guarding.parents _ x ih _ hq).2).resolve_right (by simp)

theorem Exact.guardsAt_iff (h : c.Exact E t) : (t.guardsAt q).contains x = true ↔
    ∃ b, q ∈ c.parents b ∧ (t.forcedAt b).contains x = true :=
  ⟨h.traced.guards q x, fun ⟨b, hq, hb⟩ => (h.guarding.parents b x hb q hq).1⟩

theorem Exact.congr (h : c.Exact E t) (hfi : t'.Fits c.program c.func)
    (hfo : t'.forced = t.forced) (hgu : t'.guards = t.guards)
    (hE : ∀ b x, E b x ↔ E' b x) : c.Exact E' t' := by
  have hf : ∀ b, t'.forcedAt b = t.forcedAt b := fun b => by
    rw [Classification.forcedAt, hfo, Classification.forcedAt]
  have hg : ∀ b, t'.guardsAt b = t.guardsAt b := fun b => by
    rw [Classification.guardsAt, hgu, Classification.guardsAt]
  refine ⟨hfi, ⟨fun b x hb q hq => ?_, fun q x hq => ?_⟩, ⟨fun b x hb => ?_, fun q x hq => ?_, ?_⟩,
    fun b x hb => ?_⟩
  · rw [hf] at hb
    rw [hg, Owed, hf]
    exact h.guarding.parents b x hb q hq
  · rw [hg] at hq
    rw [Owed, hf]
    exact h.guarding.guards q x hq
  · rw [hf] at hb
    exact (h.traced.forced b x hb).mono fun b x => (hE b x).mp
  · simp only [hg, hf] at hq ⊢
    exact h.traced.guards q x hq
  · simp
  · rw [hf]
    exact h.demanded b x ((hE b x).mpr hb)

theorem Exact.propagate {s s1 : State} (hc : c.ParentsInRange) (h : c.Exact E s.table)
    (hp : c.propagate work s = .ok s1) :
    c.Exact (fun b x => E b x ∨ ∃ w ∈ work, w.node = .block b ∧ w.force.contains x = true)
      (c.settled s1).table := by
  have ha := advances_of_propagate h.fits hp
  have hs := resolve_steady c s1.table
  have ht := ha.traced (E := fun b x =>
    E b x ∨ ∃ w ∈ work, w.node = .block b ∧ w.force.contains x = true) h.fits
    ⟨fun b x hb => (h.traced.forced b x hb).mono fun _ _ => .inl, h.traced.guards,
      fun w hw b x hn hx => ⟨b, .inr ⟨w, List.mem_reverse.mp hw, hn, hx⟩, .refl⟩⟩
  have he : c.Exact (fun b x =>
      E b x ∨ ∃ w ∈ work, w.node = .block b ∧ w.force.contains x = true) s1.table := by
    refine ⟨ha.fits h.fits, ha.guarding hc h.fits (h.guarding.mono (by simp)), ht,
      fun b x hb => ?_⟩
    have ho : Owed s.table work.reverse b x := by
      rcases hb with hb | ⟨w, hw, hn, hx⟩
      · exact .inl (h.demanded b x hb)
      · exact .inr ⟨w, List.mem_reverse.mpr hw, hn, hx⟩
    exact (ha.owed h.fits ho).resolve_right (by simp)
  exact he.congr (hs.fits (ha.fits h.fits)) hs.forced hs.guards
    fun _ _ => Iff.rfl

section Sites

variable {name : String} {scope : Scope} {flags : UsageFlags}

/-- A conditional write of a sink is any call of it, or a store to it that some run passes by. -/
theorem exists_conditional_site_iff :
    (∃ site ∈ c.sinkSites name, site.conditional = true ∧ site.block = b) ↔
      ∃ (i : InstId) (inst : Inst), c.func.insts[i]? = some inst ∧ inst.block = b ∧
        ((∃ callee args, inst.op = .call (.direct callee) args ∧
            c.program.declNamed? name = some callee) ∨
          ∃ v addr g, inst.op = .store v addr ∧ addr.global? = some g ∧
            c.program.globalNamed? name = some g ∧
            c.postDominators.postDominates b c.func.entry = false) := by
  constructor
  · rintro ⟨site, hs, hco, rfl⟩
    obtain ⟨i, -, hi⟩ := List.mem_filterMap.mp hs
    unfold sinkSite? at hi
    split at hi
    · next v addr ty block hin =>
      split at hi
      · next hgl =>
        obtain rfl := Option.some.inj hi
        rw [Bool.and_eq_true, beq_iff_eq] at hgl
        obtain ⟨g, hg⟩ := Option.isSome_iff_exists.mp hgl.1
        refine ⟨i, _, hin, rfl, .inr ⟨v, addr, g, rfl, hgl.2.trans hg, hg, ?_⟩⟩
        simpa using hco
      · cases hi
    · next callee args ty block hin =>
      split at hi
      · next hc =>
        obtain rfl := Option.some.inj hi
        exact ⟨i, _, hin, rfl, .inl ⟨callee, args, rfl, beq_iff_eq.mp hc⟩⟩
      · cases hi
    · cases hi
  · rintro ⟨i, ⟨op, ty, block⟩, hin, rfl, hca⟩
    have hme : i ∈ c.func.instIds := List.mem_range.mpr (Array.getElem?_eq_some_iff.mp hin).1
    rcases hca with ⟨callee, args, hop, hc⟩ | ⟨v, addr, g, hop, ha, hg, hm⟩
    · obtain rfl : op = _ := hop
      refine ⟨⟨i, block, .inst i, args, true⟩, List.mem_filterMap.mpr ⟨i, hme, ?_⟩, rfl, rfl⟩
      simp [sinkSite?, hin, hc]
    · obtain rfl : op = _ := hop
      refine ⟨⟨i, block, v, v :: addr.indexValues, true⟩, List.mem_filterMap.mpr ⟨i, hme, ?_⟩,
        rfl, rfl⟩
      have hm : c.postDominators.postDominates block c.func.entry = false := hm
      simp [sinkSite?, hin, hg, ha, hm]

theorem sinkWork_force (hsc : (∃ b, c.Demands (.sink name scope flags) b scope) →
      scope.val < Scope.limit) :
    (∃ w ∈ (c.sinkSites name).flatMap (sinkWork scope flags), w.node = .block b ∧
      w.force.contains x = true) ↔ c.Demands (.sink name scope flags) b x := by
  have hsi := @exists_conditional_site_iff c b name
  constructor
  · rintro ⟨w, hw, hn, hx⟩
    obtain ⟨site, hs, hw⟩ := List.mem_flatMap.mp hw
    unfold sinkWork at hw
    rcases List.mem_append.mp hw with hw | hw
    · obtain ⟨_, -, rfl⟩ := Work.mem_ofValues.mp hw
      rw [Work.reach, ScopeSet.contains_empty] at hx
      cases hx
    · split at hw
      · next hc =>
        obtain rfl := List.mem_singleton.mp hw
        have hx : (ScopeSet.single scope).contains x = true := hx
        rw [ScopeSet.contains_single, Bool.and_eq_true, decide_eq_true_eq] at hx
        exact ⟨hx.1.symm, hsi.mp ⟨site, hs, hc, Node.block.inj hn⟩⟩
      · simp at hw
  · rintro ⟨rfl, hca⟩
    obtain ⟨site, hs, hc, rfl⟩ := hsi.mpr hca
    refine ⟨⟨.block site.block, flags, .single x⟩, ?_, rfl, ?_⟩
    · refine List.mem_flatMap.mpr ⟨site, hs, List.mem_append_right _ ?_⟩
      simp [hc]
    · simp [ScopeSet.contains_single, hsc ⟨_, rfl, hca⟩]

theorem pinSites_forced : (c.pinSites name scope flags t).forced = t.forced ∧
    (c.pinSites name scope flags t).guards = t.guards :=
  pinSites_invariant (P := fun u => u.forced = t.forced ∧ u.guards = t.guards) (fun _ _ _ h => h)
    ⟨rfl, rfl⟩

end Sites

def DemandsOf (c : Classifier) (requests : List Request) (b : BlockId) (x : Scope) : Prop :=
  ∃ r ∈ requests, c.Demands r b x

/-- The classification and each snapshot are exact for the requests in force there. -/
structure Tracks (c : Classifier) (j : Journal) (s : Session) : Prop where
  current : c.Exact (c.DemandsOf j.current) s.state.table
  saved : List.Forall₂ (fun rs (snap : Snapshot) => c.Exact (c.DemandsOf rs) snap.table)
    j.saved s.snapshots

theorem demandsOf_append_singleton :
    c.DemandsOf (requests ++ [r]) b x ↔ c.DemandsOf requests b x ∨ c.Demands r b x := by
  simp only [DemandsOf, List.mem_append, List.mem_singleton]
  constructor
  · rintro ⟨r', hr' | rfl, h⟩
    · exact .inl ⟨r', hr', h⟩
    · exact .inr h
  · rintro (⟨r', hr', h⟩ | h)
    · exact ⟨r', .inl hr', h⟩
    · exact ⟨r, .inr rfl, h⟩

/-- A request leaves the table exact for the requests that are then in force. -/
theorem Responds.tracks (hc : c.ParentsInRange) (h : c.Responds r s s')
    (hr : ∀ b x, c.Demands r b x → x.val < Scope.limit) (hk : c.Tracks j s) :
    c.Tracks (j.note r) s' := by
  have hn : (∀ b x, ¬c.Demands r b x) → ∀ b x,
      c.DemandsOf j.current b x ↔ c.DemandsOf (j.current ++ [r]) b x := by
    intro hn b x
    rw [demandsOf_append_singleton, or_iff_left (hn b x)]
  have hcu := hk.current
  cases h with
  | root _ | rootNamed _ _ =>
    exact ⟨hcu.congr (hcu.fits.setGlobal _ _) rfl rfl (hn fun _ _ h => h), hk.saved⟩
  | rootUnknown _ =>
    exact ⟨hcu.congr hcu.fits rfl rfl (hn fun _ _ h => h), hk.saved⟩
  | @sink name scope flags s s1 snaps hp =>
    have hpi : c.Exact (c.DemandsOf j.current) (c.pinSites name scope flags s.table) :=
      hcu.congr (fits_pinSites hcu.fits) pinSites_forced.1 pinSites_forced.2
        fun _ _ => Iff.rfl
    have he := Exact.propagate hc hpi hp
    refine ⟨he.congr he.fits rfl rfl fun b x => ?_, hk.saved⟩
    show _ ↔ c.DemandsOf (j.current ++ [_]) b x
    rw [demandsOf_append_singleton, sinkWork_force fun ⟨b, hb⟩ => hr b scope hb]
  | @sinkUnknown name scope flags s snaps hni =>
    refine ⟨hcu.congr hcu.fits rfl rfl (hn fun b x hd => ?_), hk.saved⟩
    obtain ⟨site, hs, -⟩ := exists_conditional_site_iff.mpr hd.2
    simp [hni] at hs
  | @value v flags s s1 snaps hp =>
    have he := Exact.propagate hc hcu hp
    refine ⟨he.congr he.fits rfl rfl fun b x => ?_, hk.saved⟩
    show _ ↔ c.DemandsOf (j.current ++ [_]) b x
    rw [← hn fun _ _ h => h, or_iff_left_iff_imp]
    rintro ⟨w, hw, -, hx⟩
    obtain ⟨_, -, rfl⟩ := Work.mem_ofValue.mp hw
    rw [Work.reach, ScopeSet.contains_empty] at hx
    cases hx
  | @block b' flags force s s1 snaps hp =>
    have he := Exact.propagate hc hcu hp
    refine ⟨he.congr he.fits rfl rfl fun b x => ?_, hk.saved⟩
    show _ ↔ c.DemandsOf (j.current ++ [_]) b x
    rw [demandsOf_append_singleton]
    refine or_congr_right ⟨?_, ?_⟩
    · rintro ⟨w, hw, hno, hx⟩
      obtain rfl := List.mem_singleton.mp hw
      refine ⟨(Node.block.inj hno).symm, ?_⟩
      cases force with
      | none => simp at hx
      | some y =>
        have hx : (ScopeSet.single y).contains x = true := hx
        rw [ScopeSet.contains_single, Bool.and_eq_true, decide_eq_true_eq] at hx
        rw [hx.1]
    · rintro ⟨rfl, rfl⟩
      refine ⟨_, List.mem_singleton_self _, rfl, ?_⟩
      simp [ScopeSet.contains_single, hr b x ⟨rfl, rfl⟩]
  | snapshot => exact ⟨hcu, List.rel_append hk.saved (.cons hcu .nil)⟩
  | @restore k s snap snaps hsn =>
    refine ⟨?_, hk.saved⟩
    obtain ⟨hk', rfl⟩ := List.getElem?_eq_some_iff.mp hsn
    obtain ⟨hl, hg⟩ := List.forall₂_iff_get.mp hk.saved
    have hlt : k < j.saved.length := hl ▸ hk'
    show c.Exact (c.DemandsOf (j.saved[k]?.getD j.current)) _
    rw [List.getElem?_eq_getElem hlt]
    exact hg k hlt hk'
  | scopeOf => exact ⟨hcu.congr hcu.fits rfl rfl (hn fun _ _ h => h), hk.saved⟩

theorem Responses.tracks (hc : c.ParentsInRange) (h : c.Responses requests s s')
    (hre : ∀ r ∈ requests, ∀ b x, c.Demands r b x → x.val < Scope.limit) (hk : c.Tracks j s) :
    c.Tracks (requests.foldl Journal.note j) s' := by
  induction h generalizing j with
  | nil => exact hk
  | cons hr _ ih =>
    exact ih (fun r hr => hre r (by simp [hr])) (hr.tracks hc (hre _ (by simp)) hk)

theorem tracks_openSession (c : Classifier) : c.Tracks ⟨[], []⟩ c.openSession := by
  refine ⟨⟨(initial_sound (n := 0)).fits, initial_guarding, ⟨fun b x hb => ?_, fun q x hq => ?_, ?_⟩,
    ?_⟩, .nil⟩
  · rw [show c.openSession.state = c.initial from rfl, forcedAt_initial] at hb
    cases hb
  · rw [show c.openSession.state = c.initial from rfl, guardsAt_initial] at hq
    cases hq
  · simp
  · rintro b x ⟨r, hr, -⟩
    simp at hr

/-- After any requests, whether they were answered or failed, a block is forced into just the scopes
in which a request in force demands it or a block that it decides about, directly or through other
branches; and a branch is repeated in just the scopes of the blocks that it decides about itself. -/
theorem forcedAt_iff_demanded {p : Program} {f : Function} {strategy : Strategy}
    {tree : PostDominators} (hc : Classifier.ofFunction p f strategy tree = .ok c)
    {requests : List Request}
    (hlimit : ∀ r ∈ requests, ∀ b x, c.Demands r b x → x.val < Scope.limit)
    {k : Nat} {result : Except Fault Answer} {s : Session}
    (hk : (c.transcript requests c.openSession)[k]? = some (result, s))
    (hresult : result ≠ .error .dangling) (b : BlockId) (x : Scope) :
    ((s.state.table.forcedAt b).contains x = true ↔
      ∃ r ∈ Request.inForce (requests.take (k + 1)), ∃ w, c.Demands r w x ∧
        Relation.ReflTransGen (fun b q => q ∈ c.parents b) w b) ∧
    ((s.state.table.guardsAt b).contains x = true ↔
      ∃ d, b ∈ c.parents d ∧ (s.state.table.forcedAt d).contains x = true) := by
  have hparents : c.ParentsInRange := by
    rw [eq_classifierOf hc]
    exact parentsInRange_classifierOf p f strategy tree
  have htracks := (responses_of_transcript hk hresult).tracks hparents
    (fun r hr => hlimit r (List.mem_of_mem_take hr)) (tracks_openSession c)
  refine ⟨htracks.current.forcedAt_iff.trans ?_, htracks.current.guardsAt_iff⟩
  constructor
  · rintro ⟨w, ⟨r, hr, hw⟩, hpath⟩
    exact ⟨r, hr, w, hw, hpath⟩
  · rintro ⟨r, hr, w, hw, hpath⟩
    exact ⟨w, ⟨r, hr, hw⟩, hpath⟩

end Classifier

def nestedWrite : Function where
  name := "main"
  entry := 0
  blocks := #[⟨[0], some (.branch (.inst 0) 1 4)⟩, ⟨[1], some (.branch (.inst 1) 2 3)⟩,
    ⟨[2], some (.jump 3)⟩, ⟨[], some (.jump 4)⟩, ⟨[], some .ret⟩]
  insts := #[⟨.load (.member 0 []), .bool, 0⟩, ⟨.load (.member 1 []), .bool, 1⟩,
    ⟨.store (.inst 0) (.member 2 []), .void, 2⟩]
  layout := [0, 1, 2, 3, 4]

def nestedClassifier : Classifier :=
  classifierOf ⟨"nested", [.plain "a" .bool, .plain "b" .bool, .plain "out" .bool], [], [nestedWrite]⟩
    nestedWrite .plain ⟨#[some 4, some 3, some 3, some 4, some 5, some 5], #[5, 4, 3, 2, 1, 0]⟩

def nestedRequests : List Request :=
  [.snapshot, .sink "out" (.ofNat 2) (.ofNat 1), .restore 0, .sink "out" (.ofNat 1) (.ofNat 1)]

theorem forcedAt_nestedWrite : ∃ result s,
    (nestedClassifier.transcript nestedRequests nestedClassifier.openSession)[3]?
      = some (result, s) ∧ result ≠ .error .dangling ∧
    ∀ b x, ((s.state.table.forcedAt b).contains x = true ↔
      ∃ r ∈ Request.inForce (nestedRequests.take 4), ∃ w, nestedClassifier.Demands r w x ∧
        Relation.ReflTransGen (fun b q => q ∈ nestedClassifier.parents b) w b) ∧
    ((s.state.table.guardsAt b).contains x = true ↔
      ∃ d, b ∈ nestedClassifier.parents d ∧ (s.state.table.forcedAt d).contains x = true) := by
  have hc : Classifier.ofFunction nestedClassifier.program nestedWrite .plain
      nestedClassifier.postDominators = .ok nestedClassifier := Classifier.ofFunction_eq (by decide)
  have hanswered : ((nestedClassifier.transcript nestedRequests nestedClassifier.openSession)[3]?.any
      fun e => e.1.isOk) = true := by decide +kernel
  obtain ⟨⟨result, s⟩, hk, hok⟩ := (Option.any_eq_true _ _).mp hanswered
  have hresult : result ≠ .error .dangling := by
    rintro rfl
    cases hok
  have hlimit : ∀ r ∈ nestedRequests, ∀ b x, nestedClassifier.Demands r b x →
      x.val < Scope.limit := by
    intro r hr b x hd
    simp only [nestedRequests, List.mem_cons, List.not_mem_nil, or_false] at hr
    rcases hr with rfl | rfl | rfl | rfl
    · exact hd.elim
    · rw [hd.1]
      decide
    · exact hd.elim
    · rw [hd.1]
      decide
  exact ⟨result, s, hk, hresult, Classifier.forcedAt_iff_demanded hc hlimit hk hresult⟩

end Stagewise
