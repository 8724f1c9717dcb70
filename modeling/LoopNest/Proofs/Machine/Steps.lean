import LoopNest.Proofs.Machine.Runs

/-!
# Steps of the machine, calls included

`Machine.Advances` says what a step that goes on can do, in four cases: it computes a result,
jumps to a block, calls a function, or hands a result back to a waiting frame.
`Machine.step_eq_next_iff` says that these are the steps of the machine.

`Machine.Reaches` chains steps, through states that meet a condition.  A run that is over went
through such a chain (`Machine.exists_of_run`), so a property that every step keeps holds when a
run is over (`Reaches.invariant`).
-/

namespace LoopNest

/-! ## Frames -/

theorem entered_of_not_mem {tt : TypeTable} {f : Func} {args : List Datum} {ρ : Values}
    {source : Option BlockId} {c : BlockId} {j : InstId} (h : j ∉ f.phis c) :
    entered tt f args source c ρ j = ρ j := if_neg h

section

variable {tt : TypeTable} {f : Func} {args : List Datum} {ρ : Values} {source : Option BlockId}
  {c : BlockId}

/-- A block without phis changes no values. -/
theorem entered_of_nil (h : f.phis c = []) : entered tt f args source c ρ = ρ := by
  funext j
  exact entered_of_not_mem (by simp [h])

/-- A block with one phi changes its value. -/
theorem entered_of_single {φ : InstId} {d : Datum} (h : f.phis c = [φ])
    (hd : phiValue tt f args source ρ φ = some d) : entered tt f args source c ρ = ρ.set φ d := by
  funext j
  by_cases hj : j = φ
  · rw [hj, Values.set_self, entered, if_pos (by simp [h]), hd]
  · rw [Values.set_of_ne hj, entered_of_not_mem (by simp [h, hj])]

end

namespace Frame

/-- The frame with its next instruction taken off. -/
def past (fr : Frame) : Frame := { fr with rest := fr.rest.tail }

@[simp] theorem func_past (fr : Frame) : fr.past.func = fr.func := rfl

@[simp] theorem args_past (fr : Frame) : fr.past.args = fr.args := rfl

@[simp] theorem block_past (fr : Frame) : fr.past.block = fr.block := rfl

@[simp] theorem values_past (fr : Frame) : fr.past.values = fr.values := rfl

@[simp] theorem value_past (tt : TypeTable) (fr : Frame) : fr.past.value tt = fr.value tt := rfl

@[simp] theorem eval_past (tt : TypeTable) (fr : Frame) : fr.past.eval tt = fr.eval tt := by
  funext v
  cases v <;> rfl

theorem rest_past {fr : Frame} {i : InstId} {rest : List InstId} (h : fr.rest = i :: rest) :
    fr.past.rest = rest := by
  simp [past, h]

@[simp] theorem func_record (fr : Frame) (i : InstId) (d : Datum) :
    (fr.record i d).func = fr.func := rfl

@[simp] theorem args_record (fr : Frame) (i : InstId) (d : Datum) :
    (fr.record i d).args = fr.args := rfl

@[simp] theorem block_record (fr : Frame) (i : InstId) (d : Datum) :
    (fr.record i d).block = fr.block := rfl

@[simp] theorem rest_record (fr : Frame) (i : InstId) (d : Datum) :
    (fr.record i d).rest = fr.rest := rfl

theorem size_record (fr : Frame) (i : InstId) (d : Datum) :
    (fr.record i d).results.size = fr.results.size := by
  simp [record]

/-- A frame is in the middle of its block with its own values. -/
theorem at_self (fr : Frame) (h : fr.results.size = fr.func.insts.size) :
    fr.At fr.func fr.args fr.block fr.rest fr.values :=
  ⟨rfl, rfl, h, rfl, rfl, rfl⟩

theorem at_activate (f : Func) (args : List Datum) :
    (Frame.activate f args).At f args 0 [] fun _ => none := by
  refine ⟨rfl, rfl, by simp [activate], rfl, rfl, ?_⟩
  funext i
  simp only [values, activate, Array.getElem?_replicate]
  split <;> rfl

/-- Entering a block keeps the function and the arguments. -/
theorem of_enter {tt : TypeTable} {limit : Nat} {fr fr' : Frame} {source : Option BlockId}
    {c : BlockId} {n n' : Nat} (h : fr.enter tt limit source c n = (.ok fr', n')) :
    fr'.func = fr.func ∧ fr'.args = fr.args := by
  have hrec : ∀ (ds : List (InstId × Datum)) (fr : Frame),
      (ds.foldl (fun fr e => fr.record e.1 e.2) fr).func = fr.func ∧
      (ds.foldl (fun fr e => fr.record e.1 e.2) fr).args = fr.args := by
    intro ds
    induction ds with
    | nil => exact fun fr => ⟨rfl, rfl⟩
    | cons e ds ih => exact fun fr => ih (fr.record e.1 e.2)
  simp only [enter] at h
  split at h
  · cases (Prod.mk.inj h).1
  · cases h
    exact hrec _ _

end Frame

/-! ## One step -/

namespace Machine

/-- What a step that goes on can do. -/
inductive Advances (p : Program) (limit : Nat) : State → State → Prop where
  /-- It computes a result. -/
  | plain {fr : Frame} {i : InstId} {rest : List InstId} {cs : List Caller} {m m' : Memory}
      {n : Nat} {d : Datum} : fr.rest = i :: rest → n + 1 ≤ limit →
      (fr.func.op i).isPlain = true → fr.past.compute p.types (fr.func.inst i) m = (.ok d, m') →
      Advances p limit ⟨fr, cs, m, n⟩ ⟨fr.past.record i d, cs, m', n + 1⟩
  /-- It enters a block. -/
  | jump {fr fr' : Frame} {i : InstId} {rest : List InstId} {cs : List Caller} {m : Memory}
      {n n' : Nat} {c : BlockId} : fr.rest = i :: rest → n + 1 ≤ limit →
      Leaves (fr.value p.types) (fr.func.op i) (.goto c) →
      fr.past.enter p.types limit (some fr.block) c (n + 1) = (.ok fr', n') →
      Advances p limit ⟨fr, cs, m, n⟩ ⟨fr', cs, m, n'⟩
  /-- It calls a function. -/
  | call {fr fr' : Frame} {i : InstId} {rest : List InstId} {cs : List Caller} {m : Memory}
      {n n' : Nat} {name : String} {args : List Operand} {ds : List Datum} {g : Func}
      {e : BlockId} : fr.rest = i :: rest → n + 1 ≤ limit → fr.func.op i = .call name args →
      callee? p name = some g → args.mapM (fr.eval p.types) = .ok ds → g.entry? = some e →
      g.params.size = ds.length →
      (Frame.activate g ds).enter p.types limit none e (n + 1) = (.ok fr', n') →
      Advances p limit ⟨fr, cs, m, n⟩ ⟨fr', ⟨fr.past, i⟩ :: cs, m, n'⟩
  /-- It hands a result back. -/
  | ret {fr : Frame} {i : InstId} {rest : List InstId} {c : Caller} {cs : List Caller} {m : Memory}
      {n : Nat} {d : Datum} : fr.rest = i :: rest → n + 1 ≤ limit →
      Leaves (fr.value p.types) (fr.func.op i) (.ret d) →
      Advances p limit ⟨fr, c :: cs, m, n⟩ ⟨c.frame.record c.call d, cs, m, n + 1⟩

/-- How a run can end with a step. -/
inductive Stops (p : Program) (limit : Nat) : State → Halt → Prop where
  /-- It returns to no one. -/
  | finish {fr : Frame} {i : InstId} {rest : List InstId} {m : Memory} {n : Nat} {d : Datum} :
      fr.rest = i :: rest → n + 1 ≤ limit → Leaves (fr.value p.types) (fr.func.op i) (.ret d) →
      Stops p limit ⟨fr, [], m, n⟩ ⟨.ok d, m, n + 1⟩
  /-- No instruction is left in the block. -/
  | fell {fr : Frame} {cs : List Caller} {m : Memory} {n : Nat} : fr.rest = [] →
      Stops p limit ⟨fr, cs, m, n⟩
        ⟨.error (.malformed (.fellThrough (fr.func.block fr.block).name)), m, n⟩
  /-- The limit is reached. -/
  | limit {fr : Frame} {cs : List Caller} {m : Memory} {n : Nat} : limit < n + 1 →
      Stops p limit ⟨fr, cs, m, n⟩ ⟨.error (.stepLimit limit), m, n + 1⟩
  /-- An instruction has no result. -/
  | compute {fr : Frame} {i : InstId} {rest : List InstId} {cs : List Caller} {m m' : Memory}
      {n : Nat} {e : Fault} : fr.rest = i :: rest → (fr.func.op i).isPlain = true →
      fr.past.compute p.types (fr.func.inst i) m = (.error e, m') →
      Stops p limit ⟨fr, cs, m, n⟩ ⟨.error e, m', n + 1⟩
  /-- An operand has no value. -/
  | eval {fr : Frame} {i : InstId} {rest : List InstId} {cs : List Caller} {m : Memory} {n : Nat}
      {v : Operand} {e : Fault} : fr.rest = i :: rest → v ∈ (fr.func.op i).operands →
      fr.eval p.types v = .error e → Stops p limit ⟨fr, cs, m, n⟩ ⟨.error e, m, n + 1⟩
  /-- A condition is not a truth value. -/
  | notBool {fr : Frame} {cs : List Caller} {m : Memory} {n : Nat} {d : Datum} {e : Fault} :
      d.asBool = .error e → Stops p limit ⟨fr, cs, m, n⟩ ⟨.error e, m, n + 1⟩
  /-- The called function is not defined. -/
  | unknownCallee {fr : Frame} {cs : List Caller} {m : Memory} {n : Nat} {name : String} :
      Stops p limit ⟨fr, cs, m, n⟩ ⟨.error (.unknownCallee name), m, n + 1⟩
  /-- The called function takes another number of arguments. -/
  | argumentCount {fr : Frame} {cs : List Caller} {m : Memory} {n : Nat} {name : String}
      {expected found : Nat} :
      Stops p limit ⟨fr, cs, m, n⟩ ⟨.error (.argumentCount name expected found), m, n + 1⟩
  /-- A block cannot be entered. -/
  | enter {fr : Frame} {i : InstId} {rest : List InstId} {cs : List Caller} {m : Memory}
      {n n' : Nat} {c : BlockId} {e : Fault} : fr.rest = i :: rest →
      Leaves (fr.value p.types) (fr.func.op i) (.goto c) →
      fr.past.enter p.types limit (some fr.block) c (n + 1) = (.error e, n') →
      Stops p limit ⟨fr, cs, m, n⟩ ⟨.error e, m, n'⟩
  /-- The called function cannot be entered. -/
  | enterCallee {fr : Frame} {cs : List Caller} {m : Memory} {n n' : Nat} {name : String}
      {g : Func} {ds : List Datum} {c : BlockId} {e : Fault} : callee? p name = some g →
      g.entry? = some c → g.params.size = ds.length →
      (Frame.activate g ds).enter p.types limit none c (n + 1) = (.error e, n') →
      Stops p limit ⟨fr, cs, m, n⟩ ⟨.error e, m, n'⟩

/-- An instruction that computes a result goes on. -/
theorem exists_advances_of_computes {p : Program} {limit n : Nat} {fr : Frame} {i : InstId}
    {rest : List InstId} (hrest : fr.rest = i :: rest) (hn : n + 1 ≤ limit) {m : Memory} {d : Datum}
    {δ : List Chunk} {rs : Array Region} (cs : List Caller)
    (h : Computes p.types (fr.value p.types) fr.func.tyOf (fr.func.inst i).ty (fr.func.op i)
      m.regions d δ rs) :
    ∃ m', m'.regions = rs ∧ Advances p limit ⟨fr, cs, m, n⟩ ⟨fr.past.record i d, cs, m', n + 1⟩ := by
  have hplain : (fr.func.inst i).op.isPlain = true := h.isPlain
  have h' : Computes p.types (fr.past.value p.types) fr.past.func.tyOf (fr.func.inst i).ty
      (fr.func.inst i).op m.regions d δ rs := h
  obtain ⟨m', hcomp, hrs⟩ := (Frame.compute_ok_iff hplain).mpr ⟨δ, h'⟩
  exact ⟨m', hrs, .plain hrest hn hplain hcomp⟩

theorem exists_of_mapM_eq_error {α β ε : Type} {k : α → Except ε β} {e : ε} :
    ∀ {as : List α}, as.mapM k = .error e → ∃ a ∈ as, k a = .error e
  | [], h => by cases h
  | a :: as, h => by
    rw [List.mapM_cons] at h
    cases ha : k a with
    | error e' =>
      rw [ha] at h
      cases h
      exact ⟨a, List.mem_cons_self, ha⟩
    | ok b =>
      rw [ha] at h
      cases has : as.mapM k with
      | error e' =>
        rw [has] at h
        cases h
        obtain ⟨x, hx, hk⟩ := exists_of_mapM_eq_error has
        exact ⟨x, List.mem_cons_of_mem _ hx, hk⟩
      | ok bs =>
        rw [has] at h
        cases h

section

variable {p : Program} {limit : Nat}

/-- What is executed in the middle of a block. -/
theorem step_cons {fr : Frame} {i : InstId} {rest : List InstId} (h : fr.rest = i :: rest)
    (cs : List Caller) (m : Memory) {n : Nat} (hn : n + 1 ≤ limit) :
    step p limit ⟨fr, cs, m, n⟩ = execute p limit fr.past cs m i (n + 1) := by
  simp only [step, h, Frame.past, List.tail_cons]
  rw [if_neg (Nat.not_lt.mpr hn)]

theorem execute_of_isPlain (fr : Frame) {i : InstId} (hp : (fr.func.op i).isPlain = true)
    (cs : List Caller) (m : Memory) (n : Nat) :
    execute p limit fr cs m i n =
      match fr.compute p.types (fr.func.inst i) m with
      | (.ok d, m) => .next ⟨fr.record i d, cs, m, n⟩
      | (.error err, m) => .halt ⟨.error err, m, n⟩ := by
  unfold execute
  change (fr.func.inst i).op.isPlain = true at hp
  generalize fr.func.inst i = x at hp ⊢
  obtain ⟨op, ty, name, owner⟩ := x
  cases op <;> first | rfl | simp [Op.isPlain] at hp

theorem execute_of_goto (fr : Frame) {i : InstId} {c : BlockId}
    (hl : Leaves (fr.value p.types) (fr.func.op i) (.goto c)) (cs : List Caller) (m : Memory)
    (n : Nat) : execute p limit fr cs m i n = goto p limit fr cs m (some fr.block) c n := by
  unfold execute
  unfold Func.op at hl
  generalize fr.func.inst i = x at hl ⊢
  obtain ⟨op, ty, name, owner⟩ := x
  dsimp only at hl ⊢
  generalize hx : Next.goto c = x at hl
  cases hl with
  | br =>
    cases hx
    rfl
  | condBr hc =>
    cases hx
    simp only [Frame.eval_eq_ok.mpr hc, Except.bind, Datum.asBool]
  | retVoid => cases hx
  | ret _ => cases hx

theorem execute_of_ret (fr : Frame) {i : InstId} {d : Datum}
    (hl : Leaves (fr.value p.types) (fr.func.op i) (.ret d)) (cs : List Caller) (m : Memory)
    (n : Nat) : execute p limit fr cs m i n = giveBack d cs m n := by
  unfold execute
  unfold Func.op at hl
  generalize fr.func.inst i = x at hl ⊢
  obtain ⟨op, ty, name, owner⟩ := x
  dsimp only at hl ⊢
  cases hl with
  | retVoid => rfl
  | ret hv => simp only [Frame.eval_eq_ok.mpr hv]

theorem execute_of_call (fr : Frame) {i : InstId} {name : String} {args : List Operand}
    (hop : fr.func.op i = .call name args) {g : Func} (hg : callee? p name = some g)
    {ds : List Datum} (hds : args.mapM (fr.eval p.types) = .ok ds) (cs : List Caller) (m : Memory)
    (n : Nat) : execute p limit fr cs m i n = invoke p limit g ds (⟨fr, i⟩ :: cs) m n := by
  unfold execute
  change (fr.func.inst i).op = _ at hop
  simp only [hop, hg, hds]

/-- Starting a function that succeeds. -/
theorem invoke_eq_next_iff {g : Func} {ds : List Datum} {cs : List Caller} {m : Memory} {n : Nat}
    {s : State} : invoke p limit g ds cs m n = .next s ↔
      ∃ e fr n', g.entry? = some e ∧ g.params.size = ds.length ∧
        (Frame.activate g ds).enter p.types limit none e n = (.ok fr, n') ∧ s = ⟨fr, cs, m, n'⟩ := by
  constructor
  · intro h
    unfold invoke at h
    split at h
    · cases h
    · rename_i e he
      split at h
      · cases h
      · rename_i hsize
        unfold goto at h
        split at h
        · rename_i fr k henter
          exact ⟨e, fr, k, he, not_not.mp hsize, henter, (Transition.next.inj h).symm⟩
        · cases h
  · rintro ⟨e, fr, k, he, hsize, henter, rfl⟩
    simp only [invoke, he, ne_eq, hsize, not_true_eq_false, if_false, goto, henter]

/-- A function that cannot be started fails. -/
theorem invoke_ne_halt_ok {g : Func} {ds : List Datum} {cs : List Caller} {m m' : Memory}
    {n n' : Nat} {d : Datum} : invoke p limit g ds cs m n ≠ .halt ⟨.ok d, m', n'⟩ := by
  intro h
  unfold invoke goto at h
  split at h
  · cases h
  · split at h
    · cases h
    · split at h <;> cases h

/-- What a state allows a step to lead to. -/
def Allows (p : Program) (limit : Nat) (s : State) : Transition → Prop
  | .next t => Advances p limit s t
  | .halt h => Stops p limit s h

theorem allows_goto {fr : Frame} {i : InstId} {rest : List InstId} (hrest : fr.rest = i :: rest)
    (cs : List Caller) (m : Memory) {n : Nat} (hn : n + 1 ≤ limit) {c : BlockId}
    (hl : Leaves (fr.value p.types) (fr.func.op i) (.goto c)) :
    Allows p limit ⟨fr, cs, m, n⟩ (execute p limit fr.past cs m i (n + 1)) := by
  rw [execute_of_goto fr.past hl, goto, Frame.block_past]
  cases he : fr.past.enter p.types limit (some fr.block) c (n + 1) with
  | mk r k =>
    cases r with
    | ok fr' => exact Advances.jump hrest hn hl he
    | error err => exact Stops.enter hrest hl he

theorem allows_ret {fr : Frame} {i : InstId} {rest : List InstId} (hrest : fr.rest = i :: rest)
    (cs : List Caller) (m : Memory) {n : Nat} (hn : n + 1 ≤ limit) {d : Datum}
    (hl : Leaves (fr.value p.types) (fr.func.op i) (.ret d)) :
    Allows p limit ⟨fr, cs, m, n⟩ (execute p limit fr.past cs m i (n + 1)) := by
  rw [execute_of_ret fr.past hl]
  cases cs with
  | nil => exact Stops.finish hrest hn hl
  | cons c cs => exact Advances.ret hrest hn hl

theorem allows_call {fr : Frame} {i : InstId} {rest : List InstId} (hrest : fr.rest = i :: rest)
    (cs : List Caller) (m : Memory) {n : Nat} (hn : n + 1 ≤ limit) {name : String}
    {args : List Operand} (hop : fr.func.op i = .call name args) :
    Allows p limit ⟨fr, cs, m, n⟩ (execute p limit fr.past cs m i (n + 1)) := by
  have hop' : (fr.past.func.inst i).op = .call name args := hop
  cases hg : callee? p name with
  | none =>
    simp only [execute, hop', hg]
    exact Stops.unknownCallee
  | some g =>
    cases hds : args.mapM (fr.eval p.types) with
    | error err =>
      obtain ⟨v, hv, herr⟩ := exists_of_mapM_eq_error hds
      simp only [execute, hop', hg, Frame.eval_past, hds]
      exact Stops.eval hrest (by simpa [hop, Op.operands] using hv) herr
    | ok ds =>
      rw [execute_of_call fr.past hop hg (by simpa using hds), invoke]
      cases he : g.entry? with
      | none => exact Stops.unknownCallee
      | some e =>
        by_cases hsize : g.params.size = ds.length
        · simp only [hsize, ne_eq, not_true_eq_false, if_false, goto]
          cases henter : (Frame.activate g ds).enter p.types limit none e (n + 1) with
          | mk r k =>
            cases r with
            | ok fr' => exact Advances.call hrest hn hop hg hds he hsize henter
            | error err => exact Stops.enterCallee hg he hsize henter
        · simp only [ne_eq, hsize, not_false_eq_true, if_true]
          exact Stops.argumentCount

/-- A step goes on or is the last one. -/
theorem allows_step (p : Program) (limit : Nat) (s : State) : Allows p limit s (step p limit s) := by
  obtain ⟨fr, cs, m, n⟩ := s
  cases hrest : fr.rest with
  | nil =>
    simp only [step, hrest]
    exact Stops.fell hrest
  | cons i rest =>
    by_cases hlim : limit < n + 1
    · simp only [step, hrest, hlim, if_true]
      exact Stops.limit hlim
    have hn : n + 1 ≤ limit := Nat.not_lt.mp hlim
    rw [step_cons hrest cs m hn]
    cases hop : fr.func.op i with
    | br c => exact allows_goto (c := c) hrest cs m hn (by rw [hop]; exact .br)
    | condBr v c e =>
      have hop' : (fr.past.func.inst i).op = .condBr v c e := hop
      cases hv : fr.eval p.types v with
      | error err =>
        simp only [execute, hop', Frame.eval_past, hv, Except.bind]
        exact Stops.eval (v := v) hrest (by simp [hop, Op.operands]) hv
      | ok d =>
        cases hb : d.asBool with
        | error err =>
          simp only [execute, hop', Frame.eval_past, hv, Except.bind, hb]
          exact Stops.notBool hb
        | ok taken =>
          rw [Datum.asBool_eq_ok] at hb
          subst hb
          refine allows_goto (c := if taken then c else e) hrest cs m hn ?_
          rw [hop]
          exact .condBr (Frame.eval_eq_ok.mp hv)
    | ret v =>
      cases v with
      | none => exact allows_ret (d := .void) hrest cs m hn (by rw [hop]; exact .retVoid)
      | some v =>
        have hop' : (fr.past.func.inst i).op = .ret (some v) := hop
        cases hv : fr.eval p.types v with
        | error err =>
          simp only [execute, hop', Frame.eval_past, hv]
          exact Stops.eval (v := v) hrest (by simp [hop, Op.operands]) hv
        | ok d =>
          refine allows_ret (d := d) hrest cs m hn ?_
          rw [hop]
          exact .ret (Frame.eval_eq_ok.mp hv)
    | call name args => exact allows_call hrest cs m hn hop
    | _ =>
      have hp : (fr.func.op i).isPlain = true := by simp [hop, Op.isPlain]
      rw [execute_of_isPlain fr.past hp, Frame.func_past]
      cases hc : fr.past.compute p.types (fr.func.inst i) m with
      | mk r m' =>
        cases r with
        | ok d => exact Advances.plain hrest hn hp hc
        | error err => exact Stops.compute hrest hp hc

theorem step_eq_next_iff {s t : State} : step p limit s = .next t ↔ Advances p limit s t := by
  constructor
  · intro h
    have ha := allows_step p limit s
    rw [h] at ha
    exact ha
  intro h
  cases h with
  | plain hrest hn hp hc =>
    rw [step_cons hrest _ _ hn, execute_of_isPlain _ (by simpa using hp)]
    simp only [Frame.func_past, hc]
  | jump hrest hn hl he =>
    rw [step_cons hrest _ _ hn, execute_of_goto _ (by simpa using hl), goto]
    simp only [Frame.block_past, he]
  | call hrest hn hop hg hds he hsize henter =>
    rw [step_cons hrest _ _ hn, execute_of_call _ (by simpa using hop) hg (by simpa using hds)]
    exact invoke_eq_next_iff.mpr ⟨_, _, _, he, hsize, henter, rfl⟩
  | ret hrest hn hl =>
    rw [step_cons hrest _ _ hn, execute_of_ret _ (by simpa using hl), giveBack.eq_def]

theorem stops_of_step {s : State} {h : Halt} (hs : step p limit s = .halt h) :
    Stops p limit s h := by
  have ha := allows_step p limit s
  rw [hs] at ha
  exact ha

/-- A run ends well at a return to no one. -/
theorem step_eq_halt_ok_iff {s : State} {m : Memory} {n : Nat} {d : Datum} :
    step p limit s = .halt ⟨.ok d, m, n⟩ ↔ ∃ i rest, s.frame.rest = i :: rest ∧
      s.steps + 1 ≤ limit ∧ Leaves (s.frame.value p.types) (s.frame.func.op i) (.ret d) ∧
      s.callers = [] ∧ m = s.memory ∧ n = s.steps + 1 := by
  constructor
  · intro hs
    cases stops_of_step hs with
    | finish hrest hn hl => exact ⟨_, _, hrest, hn, hl, rfl, rfl, rfl⟩
  · obtain ⟨fr, cs, m, n⟩ := s
    rintro ⟨i, rest, hrest, hn, hl, hcs, rfl, rfl⟩
    change cs = [] at hcs
    subst hcs
    rw [step_cons hrest _ _ hn, execute_of_ret _ (by simpa using hl), giveBack.eq_def]

/-- Entering a block counts its phis and keeps to the limit. -/
theorem enter_steps {tt : TypeTable} {fr fr' : Frame} {source : Option BlockId} {c : BlockId}
    {n n' : Nat} (hn : n ≤ limit) (h : fr.enter tt limit source c n = (.ok fr', n')) :
    n' = n + (fr.func.phis c).length ∧ n' ≤ limit := by
  simp only [Frame.enter] at h
  split at h
  · cases (Prod.mk.inj h).1
  · rename_i hvalues
    cases h
    obtain ⟨hlen, hle, _⟩ := (Frame.phiValues_eq_ok _ hn).mp hvalues
    exact ⟨hlen, hle⟩

/-- Every step counts, and keeps to the limit. -/
theorem Advances.steps_lt {s t : State} (h : Advances p limit s t) :
    s.steps < t.steps ∧ s.steps < limit ∧ t.steps ≤ limit := by
  cases h with
  | plain _ hn _ _ => exact ⟨Nat.lt_succ_self _, hn, hn⟩
  | jump _ hn _ he =>
    obtain ⟨hlen, hle⟩ := enter_steps hn he
    dsimp only at hlen hle ⊢
    omega
  | call _ hn _ _ _ _ _ he =>
    obtain ⟨hlen, hle⟩ := enter_steps hn he
    dsimp only at hlen hle ⊢
    omega
  | ret _ hn _ => exact ⟨Nat.lt_succ_self _, hn, hn⟩

theorem Advances.functional {s t u : State} (h : Advances p limit s t)
    (h' : Advances p limit s u) : t = u :=
  Transition.next.inj ((step_eq_next_iff.mpr h).symm.trans (step_eq_next_iff.mpr h'))

/-! ## Many steps -/

/-- Some steps, each from a state that meets a condition. -/
inductive Reaches (p : Program) (limit : Nat) (ok : State → Prop) (s : State) : State → Prop where
  /-- No step. -/
  | refl : Reaches p limit ok s s
  /-- One step more. -/
  | snoc {t u : State} : Reaches p limit ok s t → ok t → Advances p limit t u →
      Reaches p limit ok s u

namespace Reaches

variable {ok : State → Prop} {s t u : State}

theorem trans (h : Reaches p limit ok s t) (h' : Reaches p limit ok t u) :
    Reaches p limit ok s u := by
  induction h' with
  | refl => exact h
  | snoc _ hok ha ih => exact .snoc ih hok ha

theorem cons (hok : ok s) (ha : Advances p limit s t) (h : Reaches p limit ok t u) :
    Reaches p limit ok s u := (Reaches.snoc .refl hok ha).trans h

theorem of_step (h : Machine.step p limit s = .next t) (hok : ok s) : Reaches p limit ok s t :=
  .snoc .refl hok (step_eq_next_iff.mp h)

theorem mono {ok' : State → Prop} (hm : ∀ v, ok v → ok' v) (h : Reaches p limit ok s t) :
    Reaches p limit ok' s t := by
  induction h with
  | refl => exact .refl
  | snoc _ hok ha ih => exact .snoc ih (hm _ hok) ha

/-- What holds at the start and is kept by every step holds at the end. -/
theorem invariant {motive : State → Prop} (h : Reaches p limit ok s t) (hs : motive s)
    (hstep : ∀ v w, Reaches p limit ok s v → ok v → Advances p limit v w → motive v → motive w) :
    motive t := by
  induction h with
  | refl => exact hs
  | snoc hr hok ha ih => exact hstep _ _ hr hok ha ih

/-- No step is taken, or a first one. -/
theorem head (h : Reaches p limit ok s u) :
    s = u ∨ ∃ t, ok s ∧ Advances p limit s t ∧ Reaches p limit ok t u := by
  induction h with
  | refl => exact .inl rfl
  | snoc _ hok ha ih =>
    rcases ih with rfl | ⟨t, hs, hst, htu⟩
    · exact .inr ⟨_, hok, ha, .refl⟩
    · exact .inr ⟨t, hs, hst, .snoc htu hok ha⟩

theorem steps_le (h : Reaches p limit ok s t) : s.steps ≤ t.steps := by
  induction h with
  | refl => exact Nat.le_refl _
  | snoc _ _ ha ih => exact Nat.le_trans ih (Nat.le_of_lt ha.steps_lt.1)

/-- Of two states that a run goes through, one comes after the other. -/
theorem linear {ok' : State → Prop} (h : Reaches p limit ok s t) (h' : Reaches p limit ok' s u) :
    Reaches p limit ok' t u ∨ Reaches p limit ok u t := by
  induction h with
  | refl => exact .inl h'
  | snoc _ hok ha ih =>
    rcases ih with hr | hr
    · rcases hr.head with rfl | ⟨_, _, ha', hr⟩
      · exact .inr (.snoc .refl hok ha)
      · rw [ha.functional ha']
        exact .inl hr
    · exact .inr (.snoc hr hok ha)

end Reaches

/-- A run that is over went through some states to a last step, unless it ran out of fuel. -/
theorem exists_of_run (p : Program) (limit : Nat) : ∀ (fuel : Nat) (s : State),
    ∃ t, Reaches p limit (fun _ => True) s t ∧
      (step p limit t = .halt (run p limit fuel s) ∨
        run p limit fuel s = ⟨.error (.stepLimit limit), t.memory, t.steps⟩)
  | 0, s => ⟨s, .refl, .inr rfl⟩
  | fuel + 1, s => by
    rw [run]
    cases hs : step p limit s with
    | next t =>
      obtain ⟨u, hr, hu⟩ := exists_of_run p limit fuel t
      exact ⟨u, .cons trivial (step_eq_next_iff.mp hs) hr, hu⟩
    | halt h => exact ⟨s, .refl, .inl hs⟩

/-- A run ends where its last step leads to. -/
theorem run_of_reaches {ok : State → Prop} {h : Halt} : ∀ (fuel : Nat) {s t : State},
    Reaches p limit ok s t → step p limit t = .halt h → s.steps ≤ limit →
    limit < s.steps + fuel → run p limit fuel s = h
  | 0, s, t, _, _, hle, hlt => absurd hlt (Nat.not_lt.mpr hle)
  | fuel + 1, s, t, hr, hh, hle, hlt => by
    rw [run]
    rcases hr.head with rfl | ⟨s', _, ha, hr⟩
    · rw [hh]
    · rw [step_eq_next_iff.mpr ha]
      obtain ⟨hlt', _, hle'⟩ := ha.steps_lt
      exact run_of_reaches fuel hr hh hle' (by omega)

end

end Machine

end LoopNest
