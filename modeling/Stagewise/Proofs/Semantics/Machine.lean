import Stagewise.Program
import Stagewise.Proofs.Semantics.Datum

namespace Stagewise

/-- What operations and calls compute from their operands, for a given type of the result. -/
structure Machine (α : Type) where
  /-- The value of a constant, or of each lane of a vector constant. -/
  literal : TypeId → Literal → Datum α
  binary : BinaryOp → TypeId → Datum α → Datum α → Datum α
  unary : UnaryOp → TypeId → Datum α → Datum α
  cast : CastOp → TypeId → Datum α → Datum α
  compare : Comparison → TypeId → Datum α → Datum α → Datum α
  select : TypeId → Datum α → Datum α → Datum α → Datum α
  call : String → TypeId → List (Datum α) → Datum α
  indirect : TypeId → Datum α → List (Datum α) → Datum α
  index : Datum α → Nat
  index_int : ∀ n : Nat, index (literal TypeId.int (.int n)) = n

inductive Effect (α : Type)
  | write (place : Place) (value : Datum α)
  | call (name : String) (args : List (Datum α))

namespace Effect

variable {α : Type}

def on (m : Memory α) : Effect α → Memory α
  | .write x v => m.write x v
  | .call _ _ => m

def call? : Effect α → Option (String × List (Datum α))
  | .write _ _ => none
  | .call name args => some (name, args)

end Effect

structure Run (α : Type) where
  values : InstId → Datum α
  memory : Memory α
  /-- The calls of declared functions so far, with their arguments. -/
  calls : List (String × List (Datum α))

namespace Run

variable {α : Type}

def start (m : Memory α) : Run α := ⟨fun _ => .blank, m, []⟩

def perform (s : Run α) (e : Effect α) : Run α :=
  { s with memory := e.on s.memory, calls := s.calls ++ e.call?.toList }

end Run

namespace Program

def globalName? (p : Program) (g : GlobalId) : Option String := p.globals[g]?.map GlobalDecl.name

def operandName? (p : Program) : Value → Option String
  | .global g => p.globalName? g
  | _ => none

def loadName? (p : Program) : Operation → Option String
  | .load addr => addr.global?.bind p.globalName?
  | _ => none

def storeName? (p : Program) : Operation → Option String
  | .store _ addr => addr.global?.bind p.globalName?
  | _ => none

def readNames (p : Program) (op : Operation) : List String :=
  op.operands.filterMap p.operandName? ++ (p.loadName? op).toList

end Program

namespace Machine

variable {α : Type} (M : Machine α)

def constant (types : TypePool) (c : Constant) : Datum α :=
  match types.get c.ty with
  | .vector elem len => .node (List.replicate len (M.literal elem c.literal))
  | _ => M.literal c.ty c.literal

def operand (types : TypePool) (p : Program) (values : InstId → Datum α) (m : Memory α) :
    Value → Datum α
  | .inst i => values i
  | .global g => (p.globalName? g).elim .blank m
  | .const c => M.constant types c

def position (eval : Value → Datum α) : Step → Nat
  | .fixed k => k
  | .dynamic v => M.index (eval v)

def place? (p : Program) (eval : Value → Datum α) : Address → Option Place
  | .member g path => (p.globalName? g).map fun name => ⟨name, path⟩
  | .element g path => (p.globalName? g).map fun name => ⟨name, path.map (M.position eval)⟩
  | .pending => none

/-- The result of an instruction. Stores have none, and straight-line code has no phis. -/
def compute (p : Program) (eval : Value → Datum α) (m : Memory α) (inst : Inst) : Datum α :=
  match inst.op with
  | .binary op lhs rhs => M.binary op inst.ty (eval lhs) (eval rhs)
  | .unary op v => M.unary op inst.ty (eval v)
  | .cast op v => M.cast op inst.ty (eval v)
  | .compare op lhs rhs => M.compare op inst.ty (eval lhs) (eval rhs)
  | .select cond ifTrue ifFalse => M.select inst.ty (eval cond) (eval ifTrue) (eval ifFalse)
  | .insert vector scalar index => .put (eval scalar) [M.index (eval index)] (eval vector)
  | .extract vector index => (eval vector).part (M.index (eval index))
  | .shuffle lhs rhs mask => .shuffle (eval lhs) (eval rhs) mask
  | .load addr => (M.place? p eval addr).elim .blank m.read
  | .call (.direct callee) args =>
    p.decls[callee]?.elim .blank fun d => M.call d.name inst.ty (args.map eval)
  | .call (.indirect target) args => M.indirect inst.ty (eval target) (args.map eval)
  | .store _ _ => .blank
  | .phi _ => .blank

def effect? (p : Program) (eval : Value → Datum α) : Operation → Option (Effect α)
  | .store v addr => (M.place? p eval addr).map fun x => .write x (eval v)
  | .call (.direct callee) args => p.decls[callee]?.map fun d => .call d.name (args.map eval)
  | _ => none

def step (types : TypePool) (p : Program) (f : Function) (s : Run α) (i : InstId) : Run α :=
  match f.insts[i]? with
  | none => s
  | some inst =>
    let eval := M.operand types p s.values s.memory
    let t := (M.effect? p eval inst.op).elim s s.perform
    { t with values := Function.update s.values i (M.compute p eval s.memory inst) }

def run (types : TypePool) (p : Program) (f : Function) (m : Memory α) : Run α :=
  (f.instsOf f.entry).foldl (M.step types p f) (.start m)

def loadPlace? (p : Program) (eval : Value → Datum α) : Operation → Option Place
  | .load addr => M.place? p eval addr
  | _ => none

def reads (p : Program) (eval : Value → Datum α) (op : Operation) : List Place :=
  (op.operands.filterMap p.operandName?).map (⟨·, []⟩) ++ (M.loadPlace? p eval op).toList

def effectOf (types : TypePool) (p : Program) (f : Function) (values : InstId → Datum α)
    (m : Memory α) (i : InstId) : Option (Effect α) :=
  f.insts[i]?.bind fun inst => M.effect? p (M.operand types p values m) inst.op

section Congr

variable {M} {p : Program} {types : TypePool} {eval eval' : Value → Datum α} {m m' : Memory α}

theorem place?_congr {addr : Address} (h : ∀ v ∈ addr.indexValues, eval v = eval' v) :
    M.place? p eval addr = M.place? p eval' addr := by
  cases addr with
  | member g path => rfl
  | pending => rfl
  | element g path =>
    have hp : path.map (M.position eval) = path.map (M.position eval') := by
      refine List.map_congr_left fun step hs => ?_
      cases step with
      | fixed k => rfl
      | dynamic v =>
        have hv : v ∈ (Address.element g path).indexValues :=
          List.mem_filterMap.mpr ⟨_, hs, rfl⟩
        simp only [position, h v hv]
    simp only [place?, hp]

variable {op : Operation} {x : Place}

theorem effect?_congr (h : ∀ v ∈ op.operands, eval v = eval' v) :
    M.effect? p eval op = M.effect? p eval' op := by
  cases op with
  | store v addr =>
    have ha : M.place? p eval addr = M.place? p eval' addr :=
      place?_congr fun w hw => h w (List.mem_cons_of_mem _ hw)
    simp only [effect?, ha, h v List.mem_cons_self]
  | call callee args =>
    cases callee with
    | indirect target => rfl
    | direct callee =>
      have har : args.map eval = args.map eval' :=
        List.map_congr_left fun v hv => h v (by simpa [Operation.operands, Callee.operands] using hv)
      simp only [effect?, har]
  | _ => rfl

theorem compute_congr {inst : Inst} (h : ∀ v ∈ inst.op.operands, eval v = eval' v)
    (hm : ∀ x, M.loadPlace? p eval' inst.op = some x → m.read x = m'.read x) :
    M.compute p eval m inst = M.compute p eval' m' inst := by
  obtain ⟨op, ty, block⟩ := inst
  simp only at h hm
  cases op with
  | load addr =>
    have had : M.place? p eval addr = M.place? p eval' addr := place?_congr h
    simp only [compute, had]
    cases hx : M.place? p eval' addr with
    | none => rfl
    | some x => exact hm x hx
  | call callee args =>
    have ha : args.map eval = args.map eval' :=
      List.map_congr_left fun v hv => h v (List.mem_append_right _ hv)
    cases callee with
    | direct callee => simp only [compute, ha]
    | indirect target =>
      have ht : eval target = eval' target :=
        h target (by simp [Operation.operands, Callee.operands])
      simp only [compute, ha, ht]
  | store v addr => rfl
  | phi incoming => rfl
  | _ => simp_all [compute, Operation.operands]

theorem operand_congr {w w' : InstId → Datum α} {v : Value} (hw : ∀ j, v = .inst j → w j = w' j)
    (hm : ∀ name, p.operandName? v = some name → m name = m' name) :
    M.operand types p w m v = M.operand types p w' m' v := by
  cases v with
  | inst j => exact hw j rfl
  | const c => rfl
  | global g =>
    cases hg : p.globalName? g with
    | none => simp [operand, hg]
    | some name => simpa [operand, hg] using hm name hg

theorem binding_of_mem_reads (h : x ∈ M.reads p eval op) : x.binding ∈ p.readNames op := by
  rw [reads, List.mem_append] at h
  rw [Program.readNames, List.mem_append]
  rcases h with h | h
  · obtain ⟨name, hn, rfl⟩ := List.mem_map.mp h
    exact .inl hn
  · right
    cases op with
    | load addr =>
      rw [Option.mem_toList] at h ⊢
      cases addr with
      | pending => cases h
      | member g path | element g path =>
        obtain ⟨name, hn, rfl⟩ := Option.map_eq_some_iff.mp h
        exact hn
    | _ => cases h

theorem storeName?_of_effect? {v : Datum α} (h : M.effect? p eval op = some (.write x v)) :
    p.storeName? op = some x.binding := by
  cases op with
  | store u addr =>
    obtain ⟨y, hy, heq⟩ := Option.map_eq_some_iff.mp h
    obtain ⟨rfl, -⟩ := (Effect.write.injEq ..).mp heq
    cases addr with
    | pending => cases hy
    | member g path | element g path =>
      obtain ⟨name, hn, rfl⟩ := Option.map_eq_some_iff.mp hy
      exact hn
  | call callee args =>
    cases callee with
    | indirect target => cases h
    | direct callee =>
      obtain ⟨d, -, heq⟩ := Option.map_eq_some_iff.mp h
      cases heq
  | _ => cases h

end Congr

section Run

variable {M} {types : TypePool} {p : Program} {f : Function} {rest : List InstId} {inst : Inst}
  {i : InstId}

theorem step_eq {s : Run α} (hi : f.insts[i]? = some inst) :
    M.step types p f s i =
      { ((M.effect? p (M.operand types p s.values s.memory) inst.op).elim s s.perform) with
        values := Function.update s.values i
          (M.compute p (M.operand types p s.values s.memory) s.memory inst) } := by
  simp only [step, hi]

/-- Values that are computed from each other are those of a run, as long as the run finds the
memory that they are computed from at every place that it reads. -/
theorem foldl_step {w : InstId → Datum α} {t : Memory α} {insts : List InstId}
    (hl : ∀ i ∈ insts, i < f.numInsts)
    (hd : ∀ before i after, insts = before ++ i :: after → ∀ inst, f.insts[i]? = some inst →
      ∀ j, .inst j ∈ inst.op.operands → j ∈ before)
    (hc : ∀ i ∈ insts, ∀ inst, f.insts[i]? = some inst →
      M.compute p (M.operand types p w t) t inst = w i)
    (hw : ∀ i ∈ insts, ∀ x v, M.effectOf types p f w t i = some (.write x v) →
      v = t.read x ∨
        ∀ j ∈ insts, ∀ inst, f.insts[j]? = some inst → x.binding ∉ p.readNames inst.op)
    (s : Run α)
    (hm : ∀ i ∈ insts, ∀ inst, f.insts[i]? = some inst →
      ∀ x ∈ M.reads p (M.operand types p w t) inst.op, s.memory.read x = t.read x) :
    (∀ j ∈ insts, (insts.foldl (M.step types p f) s).values j = w j) ∧
    (insts.foldl (M.step types p f) s).memory
      = (insts.filterMap (M.effectOf types p f w t)).foldl Effect.on s.memory ∧
    (insts.foldl (M.step types p f) s).calls
      = s.calls ++ (insts.filterMap (M.effectOf types p f w t)).filterMap Effect.call? := by
  -- By induction on what is left to run; the values of what has run are known.
  have key : ∀ (rest seen : List InstId) (s : Run α), insts = seen ++ rest →
      (∀ j ∈ seen, s.values j = w j) →
      (∀ i ∈ insts, ∀ inst, f.insts[i]? = some inst →
        ∀ x ∈ M.reads p (M.operand types p w t) inst.op, s.memory.read x = t.read x) →
      (∀ j ∈ insts, (rest.foldl (M.step types p f) s).values j = w j) ∧
      (rest.foldl (M.step types p f) s).memory
        = (rest.filterMap (M.effectOf types p f w t)).foldl Effect.on s.memory ∧
      (rest.foldl (M.step types p f) s).calls
        = s.calls ++ (rest.filterMap (M.effectOf types p f w t)).filterMap Effect.call? := by
    intro rest
    induction rest with
    | nil =>
      intro seen s hs hse _
      exact ⟨fun j hj => hse j (by simpa [hs] using hj), rfl, by simp⟩
    | cons i rest ih =>
      intro seen s hs hse hme
      have hi : i ∈ insts := by simp [hs]
      obtain ⟨inst, hin⟩ : ∃ inst, f.insts[i]? = some inst :=
        ⟨_, Array.getElem?_eq_getElem (hl i hi)⟩
      have hev : ∀ v ∈ inst.op.operands,
          M.operand types p s.values s.memory v = M.operand types p w t v := by
        intro v hv
        refine operand_congr (fun j hj => ?_) fun name hn => ?_
        · subst hj
          exact hse j (hd seen i rest hs inst hin j hv)
        · refine hme i hi inst hin ⟨name, []⟩ (List.mem_append_left _ ?_)
          exact List.mem_map_of_mem (List.mem_filterMap.mpr ⟨v, hv, hn⟩)
      have hval : M.compute p (M.operand types p s.values s.memory) s.memory inst = w i := by
        rw [← hc i hi inst hin]
        refine compute_congr hev fun x hx => ?_
        exact hme i hi inst hin x (List.mem_append_right _ (Option.mem_toList.mpr hx))
      have hef : M.effect? p (M.operand types p s.values s.memory) inst.op
          = M.effectOf types p f w t i := by
        simp only [effectOf, hin, Option.bind_some]
        exact effect?_congr hev
      rw [List.foldl_cons, step_eq hin, hval, hef]
      have hk : ∀ j ∈ seen ++ [i], Function.update s.values i (w i) j = w j := by
        intro j hj
        by_cases hji : j = i
        · simp [hji]
        · rw [Function.update_of_ne hji]
          exact hse j (by simpa [hji] using hj)
      cases he : M.effectOf types p f w t i with
      | none =>
        simpa [he] using ih (seen ++ [i]) { s with values := Function.update s.values i (w i) }
          (by simp [hs]) hk hme
      | some e =>
        have := ih (seen ++ [i])
          { s.perform e with values := Function.update s.values i (w i) } (by simp [hs]) hk
          fun j hj inst' hi' y hy => by
            show (e.on s.memory).read y = t.read y
            cases e with
            | call name args => exact hme j hj inst' hi' y hy
            | write x v =>
              rcases hw i hi x v he with rfl | ho
              · exact Memory.read_write_copy x (hme j hj inst' hi' y hy)
              · have hne : y.binding ≠ x.binding := fun heq =>
                  ho j hj inst' hi' (heq ▸ binding_of_mem_reads hy)
                show (s.memory.write x v).read y = _
                rw [Memory.read, Memory.write_ne _ hne]
                exact hme j hj inst' hi' y hy
        obtain ⟨hva, hm', hca⟩ := this
        refine ⟨hva, ?_, ?_⟩
        · simpa [he, Run.perform] using hm'
        · cases e <;> simpa [he, Run.perform, Effect.call?, List.filterMap_cons] using hca
  exact key insts [] s rfl (by simp) hm

theorem foldl_values {j : InstId} (h : j ∉ rest) (s : Run α) :
    (rest.foldl (M.step types p f) s).values j = s.values j := by
  induction rest generalizing s with
  | nil => rfl
  | cons i rest ih =>
    rw [List.foldl_cons, ih (fun hj => h (List.mem_cons_of_mem _ hj))]
    have hne : j ≠ i := fun hji => h (hji ▸ List.mem_cons_self)
    cases hi : f.insts[i]? with
    | none => simp only [step, hi]
    | some inst =>
      rw [step_eq hi]
      exact Function.update_of_ne hne ..

theorem foldl_memory {name : String}
    (h : ∀ i ∈ rest, ∀ inst, f.insts[i]? = some inst → p.storeName? inst.op ≠ some name)
    (s : Run α) : (rest.foldl (M.step types p f) s).memory name = s.memory name := by
  induction rest generalizing s with
  | nil => rfl
  | cons i rest ih =>
    rw [List.foldl_cons, ih fun j hj => h j (List.mem_cons_of_mem _ hj)]
    cases hi : f.insts[i]? with
    | none => simp only [step, hi]
    | some inst =>
      rw [step_eq hi]
      cases he : M.effect? p (M.operand types p s.values s.memory) inst.op with
      | none => rfl
      | some e =>
        cases e with
        | call callee args => rfl
        | write x v =>
          refine Memory.write_ne v fun hx => h i List.mem_cons_self inst hi ?_
          rw [storeName?_of_effect? he, hx]

/-- The values that a run ends with are computed from each other, and from the memory that it
started with if it reads no binding that it stores to. -/
theorem compute_run {m : Memory α} (hno : (f.instsOf f.entry).Nodup)
    (hd : ∀ before i after, f.instsOf f.entry = before ++ i :: after →
      ∀ inst, f.insts[i]? = some inst → ∀ j, .inst j ∈ inst.op.operands → j ∈ before)
    (hst : ∀ i ∈ f.instsOf f.entry, ∀ inst, f.insts[i]? = some inst →
      ∀ j ∈ f.instsOf f.entry, ∀ inst', f.insts[j]? = some inst' →
      ∀ name ∈ p.readNames inst'.op, p.storeName? inst.op ≠ some name)
    (hi : i ∈ f.instsOf f.entry) (hin : f.insts[i]? = some inst) :
    M.compute p (M.operand types p (M.run types p f m).values m) m inst
      = (M.run types p f m).values i := by
  obtain ⟨before, after, hs⟩ := List.append_of_mem hi
  have hru : M.run types p f m = after.foldl (M.step types p f)
      (M.step types p f (before.foldl (M.step types p f) (.start m)) i) := by
    rw [run, hs, List.foldl_append, List.foldl_cons]
  rw [hs, List.nodup_append] at hno
  obtain ⟨-, ha, hne⟩ := hno
  have hb : ∀ j ∈ before,
      (M.run types p f m).values j = (before.foldl (M.step types p f) (.start m)).values j := by
    intro j hj
    rw [run, hs, List.foldl_append]
    exact foldl_values (fun hj' => hne j hj j hj' rfl) _
  have hm : ∀ name ∈ p.readNames inst.op,
      (before.foldl (M.step types p f) (.start m)).memory name = m name := fun name hn =>
    foldl_memory (fun j hj inst' hi' =>
      hst j (by simp [hs, hj]) inst' hi' i hi inst hin name hn) (.start m)
  have hva : (M.run types p f m).values i
      = (M.step types p f (before.foldl (M.step types p f) (.start m)) i).values i := by
    rw [hru]
    exact foldl_values (List.nodup_cons.mp ha).1 _
  rw [hva, step_eq hin]
  simp only [Function.update_self]
  refine compute_congr (fun v hv => operand_congr (fun j hj => ?_) fun name hn => ?_)
    fun x hx => ?_
  · exact hb j (hd before i after hs inst hin j (hj ▸ hv))
  · refine (hm name (List.mem_append_left _ ?_)).symm
    exact List.mem_filterMap.mpr ⟨v, hv, hn⟩
  · have hr := binding_of_mem_reads (List.mem_append_right _ (Option.mem_toList.mpr hx))
    simp only [Memory.read, hm _ hr]

end Run

end Machine

end Stagewise
