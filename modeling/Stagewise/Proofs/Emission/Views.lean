import Stagewise.Split
import Stagewise.Proofs.Act

namespace Stagewise

structure Classification.Alike (t t' : Classification) : Prop where
  insts : ∀ i : InstId, t'.insts[i]?.map ValueInfo.usedScope = t.insts[i]?.map ValueInfo.usedScope
  globals : ∀ g : GlobalId,
    t'.globals[g]?.map ValueInfo.usedScope = t.globals[g]?.map ValueInfo.usedScope
  guards : ∀ b, t'.guardsAt b = t.guardsAt b

namespace Source

variable {p : Program} {f : Function} {t t' : Classification}

theorem instScope_alike (h : t.Alike t') : t'.instScope = t.instScope := by
  funext i
  have hi := h.insts i
  unfold Classification.instScope Classification.inst
  cases ho : t.insts[i]? with
  | none =>
    rw [ho] at hi
    rw [Option.map_eq_none_iff.mp hi]
  | some info =>
    rw [ho] at hi
    obtain ⟨info', hn, hs⟩ := Option.map_eq_some_iff.mp hi
    rw [hn]
    exact hs

theorem usedScope_bind_alike {α : Type} {o o' : Option ValueInfo}
    (h : o'.map ValueInfo.usedScope = o.map ValueInfo.usedScope) {k : ValueInfo → Act Emission α}
    (hk : ∀ x y : ValueInfo, x.usedScope = y.usedScope → k x = k y) :
    Act.ofOption o' >>= k = Act.ofOption o >>= k := by
  cases o with
  | none => rw [Option.map_eq_none_iff.mp h]
  | some info =>
    obtain ⟨info', rfl, hs⟩ := Option.map_eq_some_iff.mp h
    exact hk info' info hs

section

variable (h : t.Alike t')
include h

theorem getValue_alike : getValue ⟨p, f, t'⟩ = getValue ⟨p, f, t⟩ := by
  funext scope v
  cases v with
  | const c => rfl
  | global g => rfl
  | inst i =>
    refine usedScope_bind_alike (h.insts i) fun x y hxy => ?_
    simp only [hxy]

theorem earlierOwner_alike : earlierOwner ⟨p, f, t'⟩ = earlierOwner ⟨p, f, t⟩ := by
  funext scope addr
  unfold earlierOwner
  cases addr.global? with
  | none => rfl
  | some g =>
    refine usedScope_bind_alike (h.globals g) fun x y hxy => ?_
    simp only [hxy]

theorem copyStep_alike : copyStep ⟨p, f, t'⟩ = copyStep ⟨p, f, t⟩ := by
  funext scope step
  cases step with
  | fixed i => rfl
  | dynamic v => simp only [copyStep, getValue_alike h]

theorem copyAddress_alike : copyAddress ⟨p, f, t'⟩ = copyAddress ⟨p, f, t⟩ := by
  funext scope i addr
  cases addr with
  | member g path => rfl
  | element g path =>
    simp only [copyAddress, copyStep_alike h]
    rfl
  | pending => rfl

theorem copyKnownPhi_alike : copyKnownPhi ⟨p, f, t'⟩ = copyKnownPhi ⟨p, f, t⟩ := by
  funext scope i pred incoming
  unfold copyKnownPhi
  rw [getValue_alike h]
  rfl

theorem copyIncoming_alike : copyIncoming ⟨p, f, t'⟩ = copyIncoming ⟨p, f, t⟩ := by
  funext scope i incoming
  induction incoming with
  | nil => rfl
  | cons e rest ih => simp only [copyIncoming, getValue_alike h, ih]

theorem copyArrayRead_alike : copyArrayRead ⟨p, f, t'⟩ = copyArrayRead ⟨p, f, t⟩ := by
  funext owner scope i ty g path
  unfold copyArrayRead
  rw [getValue_alike h]
  rfl

theorem copyLoad_alike : copyLoad ⟨p, f, t'⟩ = copyLoad ⟨p, f, t⟩ := by
  funext scope i ty addr
  unfold copyLoad
  rw [earlierOwner_alike h, copyArrayRead_alike h, copyAddress_alike h]
  rfl

theorem copyOperation_alike : copyOperation ⟨p, f, t'⟩ = copyOperation ⟨p, f, t⟩ := by
  funext scope pred i inst
  unfold copyOperation
  rw [getValue_alike h, copyKnownPhi_alike h, copyIncoming_alike h, copyLoad_alike h,
    copyAddress_alike h]

theorem copyInst_alike : copyInst ⟨p, f, t'⟩ = copyInst ⟨p, f, t⟩ := by
  funext scope pred i
  unfold copyInst
  rw [copyOperation_alike h]
  rfl

theorem wantedScopes_alike : wantedScopes ⟨p, f, t'⟩ = wantedScopes ⟨p, f, t⟩ := by
  funext site
  simp only [wantedScopes, instScope_alike h, h.guards]

theorem fanOut_alike : fanOut ⟨p, f, t'⟩ = fanOut ⟨p, f, t⟩ := by
  funext site scope walkArm
  unfold fanOut
  rw [getValue_alike h]

theorem fanOutAll_alike : fanOutAll ⟨p, f, t'⟩ = fanOutAll ⟨p, f, t⟩ := by
  funext site faithful walkArm riders scopes
  induction scopes generalizing riders with
  | nil => rfl
  | cons scope rest ih => simp only [fanOutAll, fanOut_alike h, ih]

theorem copier_alike : copier ⟨p, f, t'⟩ = copier ⟨p, f, t⟩ := by
  have hb : copyBranch ⟨p, f, t'⟩ = copyBranch ⟨p, f, t⟩ := by
    funext ctx site walkArm
    unfold copyBranch
    rw [wantedScopes_alike h, fanOutAll_alike h]
  have hi : visitInst ⟨p, f, t'⟩ = visitInst ⟨p, f, t⟩ := by
    funext ctx pred i
    unfold visitInst
    rw [instScope_alike h, copyInst_alike h]
  unfold copier
  rw [hb, hi]

end

theorem wireArrays_alike (p : Program) (f : Function) (t t' : Classification) :
    wireArrays ⟨p, f, t'⟩ = wireArrays ⟨p, f, t⟩ := by
  have hg : getGlobal ⟨p, f, t'⟩ = getGlobal ⟨p, f, t⟩ := rfl
  funext key stored loaded field slots
  induction slots generalizing field with
  | nil => rfl
  | cons slot rest ih => simp only [wireArrays, hg, ih]

theorem layOutAll_alike (p : Program) (f : Function) (t t' : Classification) :
    layOutAll ⟨p, f, t'⟩ = layOutAll ⟨p, f, t⟩ := by
  have hl : layOut ⟨p, f, t'⟩ = layOut ⟨p, f, t⟩ := by
    funext key name
    unfold layOut
    rw [wireArrays_alike]
  funext records
  unfold layOutAll
  rw [hl]

theorem emitTable_alike (h : t.Alike t') : emitTable ⟨p, f, t'⟩ = emitTable ⟨p, f, t⟩ := by
  funext tree table
  unfold emitTable layOutTable copyAll
  rw [copier_alike h, layOutAll_alike p f t t']

end Source

end Stagewise
