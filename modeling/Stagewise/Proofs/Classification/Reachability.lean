import Stagewise.Kind.Shader
import Stagewise.Proofs.Classification.Outcome

namespace Stagewise

open Relation

def Function.StoresUnread (f : Function) : Prop :=
  ∀ i ∈ f.readInsts, ∀ (inst : Inst) v addr, f.insts[i]? = some inst → inst.op ≠ .store v addr

def Request.isDemand : Request → Bool
  | .sink _ _ flags => !flags.isEmpty
  | _ => false

theorem Shader.lively_strategy (avoidPixel : Bool) : (strategy avoidPixel).Lively := by
  intro site flags hf
  show (classifyCall avoidPixel site flags).argFlags.isEmpty = false
  unfold classifyCall
  split
  · exact hf
  · split
    · rw [UsageFlags.isEmpty_union]
      exact Bool.and_eq_false_iff.mpr (.inr (by decide))
    · exact hf

theorem Value.node?_ne_terminator (v : Value) (q : BlockId) : v.node? ≠ some (.terminator q) := by
  cases v <;> simp [Value.node?]

theorem Operation.terminator_not_mem_dependencies (op : Operation) (q : BlockId) :
    .terminator q ∉ op.dependencies := by
  have hva : ∀ vs : List Value, .terminator q ∉ vs.filterMap Value.node? := fun vs h => by
    obtain ⟨v, -, hv⟩ := List.mem_filterMap.mp h
    exact v.node?_ne_terminator q hv
  unfold dependencies
  split
  · next addr =>
    cases addr.global? with
    | none => exact List.not_mem_nil
    | some g => simpa using hva addr.indexValues
  · next incoming =>
    intro h
    obtain ⟨e, -, he⟩ := List.mem_flatMap.mp h
    rcases List.mem_append.mp he with he | he
    · exact e.2.node?_ne_terminator q (Option.mem_toList.mp he)
    · cases List.mem_singleton.mp he
  · exact List.not_mem_nil
  · exact hva _

namespace Classifier

variable {c : Classifier} {R : List Request} {t : Classification} {n m : Node} {i : InstId}
  {b q : BlockId} {inst : Inst} {x : Scope}

/-- What an instruction or a block relies on. A write of a sink relies on its operands, and on its block
if it is a call or may be passed by; a block on the condition of its branch and on the blocks that
decide about it; any other instruction on what it depends on, and on the conditions of all branches
that decide, at once or through others, whether its block runs. -/
inductive Relies (c : Classifier) (R : List Request) : Node → Node → Prop
  | written {i : InstId} {x : Scope} {inst : Inst} {v : Value} {n : Node} : c.Writes R i x →
      c.func.insts[i]? = some inst → v ∈ inst.op.operands → v.node? = some n → Relies c R (.inst i) n
  | home {i : InstId} {x : Scope} {inst : Inst} : c.Writes R i x → c.func.insts[i]? = some inst →
      ((∃ callee args, inst.op = .call callee args) ∨
        c.postDominators.postDominates inst.block c.func.entry = false) →
      Relies c R (.inst i) (.block inst.block)
  | cond {b : BlockId} {v : Value} {n : Node} : c.func.cond? b = some v → v.node? = some n →
      Relies c R (.block b) n
  | parent {b q : BlockId} : q ∈ c.parents b → Relies c R (.block b) (.block q)
  | operation {i : InstId} {inst : Inst} {n : Node} : c.Free R (.inst i) →
      c.func.insts[i]? = some inst → n ∈ inst.op.dependencies → Relies c R (.inst i) n
  | control {i : InstId} {inst : Inst} {q : BlockId} {v : Value} {n : Node} : c.Free R (.inst i) →
      c.func.insts[i]? = some inst → TransGen (fun b q => q ∈ c.parents b) inst.block q →
      c.func.cond? q = some v → v.node? = some n → Relies c R (.inst i) n

def Kept (c : Classifier) (R : List Request) (n : Node) : Prop :=
  ∃ i x, c.Writes R i x ∧ ReflTransGen (c.Relies R) (.inst i) n

theorem Kept.relies (h : c.Kept R n) (hm : c.Relies R n m) : c.Kept R m := by
  obtain ⟨i, x, hW, hp⟩ := h
  exact ⟨i, x, hW, hp.tail hm⟩

theorem Kept.parents (h : c.Kept R (.block b)) (hq : ReflTransGen (fun b q => q ∈ c.parents b) b q) :
    c.Kept R (.block q) := by
  induction hq with
  | refl => exact h
  | tail _ hp ih => exact ih.relies (.parent hp)

/-- A node is kept; the end of a block is, if its condition and those of the branches that decide about
it are. -/
def Alive (c : Classifier) (R : List Request) : Node → Prop
  | .terminator q => (∃ i inst, c.Kept R (.inst i) ∧ c.Free R (.inst i) ∧
        c.func.insts[i]? = some inst ∧ TransGen (fun b q => q ∈ c.parents b) inst.block q) ∨
      ∃ b, c.Kept R (.block b) ∧ ReflTransGen (fun b q => q ∈ c.parents b) b q
  | .global _ => True
  | n => c.Kept R n

theorem Kept.alive (h : c.Kept R n) (hn : ∀ q, n ≠ .terminator q) : c.Alive R n := by
  cases n with
  | inst _ | block _ => exact h
  | global _ => trivial
  | terminator q => exact absurd rfl (hn q)

theorem Kept.alive_value {v : Value} (h : c.Kept R n) (hv : v.node? = some n) : c.Alive R n :=
  h.alive fun q hn => v.node?_ne_terminator q (hv.trans (congrArg some hn))

def Storeless (c : Classifier) (n : Node) : Prop :=
  ∀ (i : InstId) (inst : Inst) v addr, n = .inst i → c.func.insts[i]? = some inst →
    inst.op ≠ .store v addr

/-- What an alive node leads to is alive, unless the node is a store. -/
theorem Alive.lead (h : c.Alive R n) (hn : c.Storeless n) (hm : m ∈ c.leads n) :
    c.Alive R m := by
  have hc : ∀ {b}, c.Kept R (.block b) → m ∈ ((c.func.cond? b).bind Value.node?).toList →
      c.Alive R m := by
    intro b hb hm
    obtain ⟨v, hv, hno⟩ := Option.bind_eq_some_iff.mp (Option.mem_toList.mp hm)
    exact (hb.relies (.cond hv hno)).alive_value hno
  cases n with
  | global g => cases hm
  | block b =>
    rcases List.mem_append.mp hm with hm | hm
    · exact hc h hm
    · obtain ⟨q, hq, rfl⟩ := List.mem_map.mp hm
      exact h.relies (.parent hq)
  | terminator b =>
    rcases List.mem_append.mp hm with hm | hm
    · rcases h with ⟨i, inst, hk, hf, hi, hp⟩ | ⟨b', hk, hp⟩
      · obtain ⟨v, hv, hno⟩ := Option.bind_eq_some_iff.mp (Option.mem_toList.mp hm)
        exact (hk.relies (.control hf hi hp hv hno)).alive_value hno
      · exact hc (hk.parents hp) hm
    · obtain ⟨q, hq, rfl⟩ := List.mem_map.mp hm
      rcases h with ⟨i, inst, hk, hf, hi, hp⟩ | ⟨b', hk, hp⟩
      · exact .inl ⟨i, inst, hk, hf, hi, hp.tail hq⟩
      · exact .inr ⟨b', hk, hp.tail hq⟩
  | inst i =>
    cases hi : c.func.insts[i]? with
    | none => simp [leads, hi] at hm
    | some inst =>
      simp only [leads, hi, Option.elim_some, List.mem_append, List.mem_map] at hm
      by_cases hf : c.Free R (.inst i)
      · rcases hm with hm | ⟨q, hq, rfl⟩
        · refine (Kept.relies h (.operation hf hi hm)).alive ?_
          rintro q rfl
          exact inst.op.terminator_not_mem_dependencies q hm
        · exact .inl ⟨i, inst, h, hf, hi, .single hq⟩
      · -- a call that is written keeps its block, and with it all that decides about it
        obtain ⟨x, hW⟩ : ∃ x, c.Writes R i x := by
          by_contra hco
          exact hf fun j x heq hW => hco ⟨x, Node.inst.inj heq ▸ hW⟩
        obtain ⟨name, flags, -, site, hs, rfl⟩ := id hW
        obtain ⟨inst', hi', -, -, ⟨v, addr, hop, -⟩ | ⟨callee, args, hop, -⟩⟩ := mem_sinkSites hs
        · exact absurd hop (hn _ inst' v addr rfl hi')
        · obtain rfl := Option.mem_unique hi hi'
          rcases hm with hm | ⟨q, hq, rfl⟩
          · rw [hop] at hm
            obtain ⟨v, hv, hno⟩ := List.mem_filterMap.mp hm
            exact (Kept.relies h (.written hW hi (hop ▸ hv) hno)).alive_value hno
          · exact .inr ⟨_, Kept.relies h (.home hW hi (.inl ⟨_, _, hop⟩)), .single hq⟩

section Stores

variable (hstores : c.func.StoresUnread)

include hstores

theorem storeless_of_mem_leads (hm : m ∈ c.leads n) : c.Storeless m := by
  rintro i inst v addr rfl hi
  exact hstores i (mem_readInsts_of_dependsOn (dependsOn_of_mem_leads hm)) inst v addr hi

theorem Alive.led (h : c.Alive R n) (hn : c.Storeless n)
    (hp : ReflTransGen (fun n m => m ∈ c.leads n) n m) : c.Alive R m := by
  have key : c.Alive R m ∧ c.Storeless m := by
    induction hp with
    | refl => exact ⟨h, hn⟩
    | tail _ hl ih => exact ⟨ih.1.lead ih.2 hl, storeless_of_mem_leads hstores hl⟩
  exact key.1

theorem alive_of_mem_sinkWork {name : String} {scope : Scope} {flags : UsageFlags} {site : SinkSite}
    {w : Work} (hr : .sink name scope flags ∈ R) (hs : site ∈ c.sinkSites name)
    (hw : w ∈ sinkWork scope flags site) : c.Alive R w.node ∧ c.Storeless w.node := by
  have hW : c.Writes R site.inst scope := ⟨name, flags, hr, site, hs, rfl⟩
  have hk : c.Kept R (.inst site.inst) := ⟨site.inst, scope, hW, .refl⟩
  obtain ⟨inst, hi, hb, hre, -⟩ := mem_sinkSites hs
  unfold sinkWork at hw
  rcases List.mem_append.mp hw with hw | hw
  · obtain ⟨v, hv, hw⟩ := List.mem_flatMap.mp hw
    obtain ⟨n, hn, rfl⟩ := Work.mem_ofValue.mp hw
    refine ⟨(hk.relies (.written hW hi (hre v hv) hn)).alive_value hn, ?_⟩
    intro i inst' u addr heq hi'
    obtain rfl := node?_eq_inst (hn.trans (congrArg some heq))
    refine hstores i (List.mem_append_left _ (List.mem_flatMap.mpr ⟨inst, ?_, ?_⟩)) inst' u addr hi'
    · exact Array.mem_toList_iff.mpr (Array.mem_of_getElem? hi)
    · exact List.mem_filterMap.mpr ⟨_, hre _ hv, rfl⟩
  · split at hw
    · next hc =>
      obtain rfl := List.mem_singleton.mp hw
      refine ⟨?_, fun i _ _ _ heq => by cases heq⟩
      show c.Kept R (.block site.block)
      rw [hb]
      exact hk.relies (.home hW hi ((reads_of_mem_sinkSites hs hi).2.mp hc))
    · cases hw

end Stores

/-- A table in which uses have flowed, from writes of sinks only. -/
structure Sustains (c : Classifier) (R : List Request) (t : Classification) : Prop where
  fits : t.Fits c.program c.func
  flowing : c.Flowing t []
  pinned : ∀ i, t.isPinned i = true → ∃ x, c.Writes R i x
  alive : ∀ n, (t.info n).isUsed = true → c.Alive R n

theorem Sustains.pinSites {name : String} {scope : Scope} {flags : UsageFlags} (h : c.Sustains R t)
    (hr : .sink name scope flags ∈ R) (hf : flags.isEmpty = false) :
    c.Sustains R (c.pinSites name scope flags t) := by
  refine pinSites_invariant (P := c.Sustains R) (fun site hsi t h => ?_) h
  have hW : c.Writes R site.inst scope := ⟨name, flags, hr, site, hsi, rfl⟩
  obtain ⟨inst, hin, -⟩ := mem_sinkSites hsi
  refine ⟨h.fits.pin _ _, h.flowing.pin h.fits hf (Array.getElem?_eq_some_iff.mp hin).1,
    fun i hi => ?_, fun n hn => ?_⟩
  · rw [Classification.isPinned_pin] at hi
    split at hi
    · next hs => exact ⟨scope, hs.1 ▸ hW⟩
    · exact h.pinned i hi
  · rw [Classification.info_pin] at hn
    split at hn
    · next hs =>
      rw [hs.1]
      exact ⟨site.inst, scope, hW, .refl⟩
    · exact h.alive n hn

variable {s : Session} {requests : List Request} {s' : Session}

/-- A request for something makes that used and keeps all uses traceable to writes of sinks. -/
theorem Responds.sustains {r : Request} (hl : c.strategy.Lively) (hstores : c.func.StoresUnread)
    (h : c.Responds r s s') (hr : r ∈ R) (hd : r.isDemand = true)
    (hs : c.Sustains R s.state.table) :
    c.Sustains R s'.state.table ∧ ∀ n, (s.state.table.info n).isUsed = true ∨ c.Asks r n →
      (s'.state.table.info n).isUsed = true := by
  cases h with
  | @sink name scope flags s s1 snaps hpr =>
    have hfl : flags.isEmpty = false := by simpa [Request.isDemand] using hd
    have hwo : ∀ w ∈ (c.sinkSites name).flatMap (sinkWork scope flags),
        w.flags.isEmpty = false := by
      intro w hw
      obtain ⟨site, -, hw⟩ := List.mem_flatMap.mp hw
      rw [flags_sinkWork hw, hfl]
    have hp := hs.pinSites hr hfl
    have hf : c.Flowing (c.pinSites name scope flags s.table)
        ((c.sinkSites name).flatMap (sinkWork scope flags)).reverse := hp.flowing.push hwo
    have ha := advances_of_propagate hp.fits hpr
    have hu := sameUses_resolve c s1.table
    refine ⟨⟨?_, ?_, fun i hi => ?_, fun n hn => ?_⟩, fun n hn => ?_⟩
    · exact fits_resolve (ha.fits hp.fits)
    · exact hu.flowing (ha.flowing hl hf)
    · exact hp.pinned i ((ha.isPinned i).symm.trans ((hu.isPinned i).symm.trans hi))
    · have hn : (s1.table.info n).isUsed = true := (hu.isUsed n).symm.trans hn
      rcases ha.used hl hf hn with hn | ⟨w, hw, hpa⟩
      · exact hp.alive n hn
      · obtain ⟨site, hsi, hw⟩ := List.mem_flatMap.mp (List.mem_reverse.mp hw)
        obtain ⟨hal, hst⟩ := alive_of_mem_sinkWork hstores hr hsi hw
        exact hal.led hstores hst hpa
    · refine (hu.isUsed n).trans (ha.reached hl hf ?_).isUsed
      rcases hn with hn | ⟨site, hsi, rfl | ⟨w, hw, rfl⟩⟩
      · exact .inl (isUsed_pinSites hs.fits hfl (.inl hn))
      · exact .inl (isUsed_pinSites hs.fits hfl (.inr ⟨site, hsi, rfl⟩))
      · exact .inr ⟨w, List.mem_reverse.mpr (List.mem_flatMap.mpr ⟨site, hsi, hw⟩), rfl⟩
  | @sinkUnknown name scope flags s snaps hni =>
    refine ⟨hs, fun n hn => ?_⟩
    rcases hn with hn | ⟨site, hsi, -⟩
    · exact hn
    · simp [hni] at hsi
  | _ => cases hd

theorem Responses.sustains (hl : c.strategy.Lively) (hstores : c.func.StoresUnread)
    (h : c.Responses requests s s') (hre : ∀ r ∈ requests, r ∈ R ∧ r.isDemand = true)
    (hs : c.Sustains R s.state.table) :
    c.Sustains R s'.state.table ∧
      ∀ n, (s.state.table.info n).isUsed = true ∨ (∃ r ∈ requests, c.Asks r n) →
        (s'.state.table.info n).isUsed = true :=
  h.asked (I := fun s => c.Sustains R s.state.table) (fun r hr _ _ hrs =>
    hrs.sustains hl hstores (hre r hr).1 (hre r hr).2) hs

theorem sustains_of_declares (h : c.Responses requests c.openSession s)
    (hr : ∀ r ∈ requests, r.isRoot = true) : c.Sustains R s.state.table := by
  have hc := charted_of_declares (B := fun _ _ => True) (W := fun _ _ => False) h hr
    fun _ _ _ => trivial
  refine ⟨hc.fits, hc.flowing, fun i hi => ?_, fun n hn => ?_⟩
  · obtain ⟨_, -, hf⟩ := hc.pinned i hi
    exact hf.elim
  · by_cases hg : ∃ g, n = .global g
    · obtain ⟨g, rfl⟩ := hg
      trivial
    · rw [info_of_declares h hr fun g h => hg ⟨g, h⟩] at hn
      cases hn

/-- All that writes of sinks rely on is used. -/
theorem Sustains.isUsed_of_kept (h : c.Sustains R t)
    (ha : ∀ n, (∃ r ∈ R, c.Asks r n) → (t.info n).isUsed = true) (hn : c.Kept R n) :
    (t.info n).isUsed = true := by
  have hl : ∀ {n m}, (t.info n).isUsed = true → c.Free R n → m ∈ c.leads n →
      (t.info m).isUsed = true := by
    intro n m hn hf hm
    refine (h.flowing.leads n hn ?_ m hm).isUsed
    cases n with
    | inst i =>
      by_contra hpi
      obtain ⟨x, hW⟩ := h.pinned i (by simpa [Classification.fixes] using hpi)
      exact hf i x rfl hW
    | global _ | block _ | terminator _ => rfl
  obtain ⟨i, x, hW, hp⟩ := hn
  induction hp with
  | refl =>
    obtain ⟨name, flags, hr, site, hs, rfl⟩ := hW
    exact ha _ ⟨_, hr, site, hs, .inl rfl⟩
  | tail _ hre ih =>
    cases hre with
    | written hW hi hv hno =>
      obtain ⟨name, flags, hr, site, hs, rfl⟩ := hW
      have hrea := (reads_of_mem_sinkSites hs hi).1
      exact ha _ ⟨_, hr, asks_of_mem_reads hs (hrea ▸ hv) hno⟩
    | @home _ y _ hW hi hc =>
      obtain ⟨name, flags, hr, site, hs, rfl⟩ := hW
      obtain ⟨inst', hi', hb, -⟩ := mem_sinkSites hs
      obtain rfl := Option.mem_unique hi hi'
      refine ha _ ⟨_, hr, site, hs, .inr ⟨⟨.block site.block, flags, .single y⟩,
        List.mem_append_right _ ?_, congrArg Node.block hb⟩⟩
      rw [if_pos ((reads_of_mem_sinkSites hs hi).2.mpr hc)]
      exact List.mem_singleton.mpr rfl
    | cond hv hno =>
      refine hl ih (fun _ _ heq => by cases heq) (List.mem_append_left _ ?_)
      simp [hv, hno]
    | parent hq =>
      exact hl ih (fun _ _ heq => by cases heq)
        (List.mem_append_right _ (List.mem_map_of_mem hq))
    | operation hf hi hm =>
      refine hl ih hf ?_
      simp [leads, hi, hm]
    | @control i inst q v m hf hi hp hv hno =>
      -- uses come to the end of every block that decides
      have ht : (t.info (.terminator q)).isUsed = true := by
        clear hv
        induction hp with
        | single hq =>
          refine hl ih hf ?_
          simp [leads, hi, hq]
        | tail _ hq ih' =>
          exact hl ih' (fun _ _ heq => by cases heq)
            (List.mem_append_right _ (List.mem_map_of_mem hq))
      refine hl ht (fun _ _ heq => by cases heq) (List.mem_append_left _ ?_)
      simp [hv, hno]

theorem isUsed_iff_kept {declarations demands : List Request}
    (hl : c.strategy.Lively) (hstores : c.func.StoresUnread)
    (hro : ∀ r ∈ declarations, r.isRoot = true) (hde : ∀ r ∈ demands, r.isDemand = true)
    (h : c.Responses (declarations ++ demands) c.openSession s) (i : InstId) :
    (s.state.table.inst i).isUsed = true ↔ c.Kept demands (.inst i) := by
  obtain ⟨s0, hd, hre⟩ := h.split
  obtain ⟨hs, hu⟩ := hre.sustains hl hstores
    (fun r hr => ⟨hr, hde r hr⟩) (sustains_of_declares (R := demands) hd hro)
  exact ⟨hs.alive (.inst i),
    hs.isUsed_of_kept fun n hn => hu n (.inr hn)⟩

end Classifier

end Stagewise
