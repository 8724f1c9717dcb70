import LoopNest.Proofs.Builder.Woven
import LoopNest.Proofs.Kernel.Accepted

/-!
# Kernels are woven

The code of a convolution or of a pooling layer is a nest of four loops, whatever the shape of the
tensors is.  Its innermost block computes an index from all four induction values, and adds to a cell
that the two inner loops do not move.
-/

namespace LoopNest

open Func

namespace Build.Yields

variable {P : Remark} {here : BlockId}

theorem elements {o : TensorOperand} {k : Nat} {Q : Operand → BlockId → Calls → Remark → Prop}
    (hQ : ∀ v, Q v here .none fun f => f.Computes here v ∧ P f) :
    Yields (o.elements here k) here P Q := by
  refine .bind (.param ?_)
  cases ho : o.length with
  | none => exact .forget (.pure ⟨_, fun f hf => ⟨nofun, hf⟩, hQ (.param k)⟩)
  | some n =>
    exact .bind (.intern fun t => .bind (.intern fun u => .forget (.valueOf rfl rfl fun i =>
      ⟨_, fun f hf => ⟨hf.1.computes, hf.2⟩, hQ (.inst i)⟩)))

theorem dims {d : Dims} {Q : Operand × Operand → BlockId → Calls → Remark → Prop}
    (hQ : ∀ v, Q v here .none P) : Yields (Build.dims d) here P Q :=
  .bind (.constant fun h => .bind (.constant fun w => .pure (hQ (h, w))))

end Build.Yields

/-- The block uses the induction values of a window. -/
structure Func.Taps (f : Func) (here : BlockId) (oy ox ky kx : Operand) : Prop where
  oy : f.Uses here oy
  ox : f.Uses here ox
  ky : f.Uses here ky
  kx : f.Uses here kx

namespace MaxPool2d

variable {P : Remark} {here : BlockId} {k : Constants} {src slot dst oy ox ky kx : Operand}
  {Q : Unit → BlockId → Calls → Remark → Prop}

theorem yields_tap (hQ : Q () here .none fun f => f.Taps here oy ox ky kx ∧
    (∃ i v, f.Holds here i (.store v slot)) ∧ P f) :
    Build.Yields (tap k here src slot oy ox ky kx) here P Q := by
  refine .bind (.value rfl rfl fun oyS => .bind (.value rfl rfl fun iy => .bind (.value rfl rfl
    fun oxS => .bind (.value rfl rfl fun ix => .bind (.value rfl rfl fun row => .bind (.value rfl rfl
      fun idx => .bind (.value rfl rfl fun ptr => .bind (.value rfl rfl fun x => .bind (.value rfl rfl
        fun cur => .bind (.value rfl rfl fun greater => .bind (.value rfl rfl fun next => ?_)))))))))))
  refine .forget (.effect rfl rfl fun i => ⟨_, ?_, hQ⟩)
  rintro f ⟨hstore, -, -, -, -, -, -, -, hix, hoxS, hiy, hoyS, hP⟩
  refine ⟨⟨hoyS.uses ?_, hoxS.uses ?_, hiy.uses ?_, hix.uses ?_⟩, ⟨i, _, hstore⟩, hP⟩ <;>
    simp [Op.operands]

theorem yields_writeCell (hQ : ∀ P', (∀ f, P' f → P f) → Q () here .none P') :
    Build.Yields (writeCell k here dst slot oy ox) here P Q := by
  refine .bind (.value rfl rfl fun result => .bind (.value rfl rfl fun row => .bind (.value rfl rfl
    fun cell => .bind (.value rfl rfl fun ptr => .effect rfl rfl fun i => hQ _ ?_))))
  rintro f ⟨-, -, -, -, -, hP⟩
  exact hP

theorem yields_constants {pl : Plan} {Q : Constants → BlockId → Calls → Remark → Prop}
    (hQ : ∀ k, Q k here .none P) : Build.Yields (constants pl) here P Q :=
  .bind (.constant fun zero => .bind (.constant fun iw => .bind (.dims fun kernel =>
    .bind (.dims fun stride => .bind (.dims fun out => .bind (.constant fun negInf =>
      .pure (hQ ⟨zero, iw, kernel, stride, out, negInf⟩)))))))

theorem forms_code (pl : Plan) :
    Build.Forms (code pl) fun calls f => ∃ outer d, calls.Nest outer d ∧ f.Woven outer d := by
  refine .intern fun f32 => .block (.bind (.elements fun src => .bind (.elements fun dst =>
    .bind (.value rfl rfl fun slot => .bind (yields_constants fun k => .bind (.loop
      fun body₁ oy => .bind (.loop fun body₂ ox => .bind (.effect rfl rfl fun i => .bind (.loop
        fun body₃ ky => .bind (.loop fun body₄ kx => .bind (yields_tap (.pure ⟨rfl, ?_⟩))))))))))))
  rintro r₄ rfl rfl
  refine .pure ⟨rfl, ?_⟩
  rintro r₃ rfl rfl
  refine .bind (yields_writeCell fun P' hP' => .pure ⟨rfl, ?_⟩)
  rintro r₂ rfl rfl
  refine .pure ⟨rfl, ?_⟩
  rintro r₁ rfl rfl
  refine .ret fun f hf => ?_
  obtain ⟨htaps, ⟨j, v, hstore⟩, -, hslot, -⟩ := hP' f hf
  refine ⟨_, _, .cons _ (.cons _ (.cons _ (.last _))), ?_, j, v, _, hstore,
    .inl (.inl hslot.computes)⟩
  simpa using ⟨htaps.oy, htaps.ox, htaps.ky, htaps.kx⟩

end MaxPool2d

namespace Conv2d

variable {P : Remark} {here : BlockId} {k : Constants} {src wts dst oy ox ky kx iy ix cell : Operand}

theorem yields_load {padded : Bool} {Q : Operand → BlockId → Calls → Remark → Prop}
    (hQ : ∀ v, Q v here .none P) :
    Build.Yields (if padded then loadPadded k here src iy ix else loadPlain k here src iy ix)
      here P Q := by
  cases padded
  · refine .bind (.value rfl rfl fun row => .bind (.value rfl rfl fun idx => .bind (.value rfl rfl
      fun ptr => .forget (.value rfl rfl fun i => ⟨P, ?_, hQ _⟩))))
    rintro f ⟨-, -, -, -, hP⟩
    exact hP
  · refine .bind (.value rfl rfl fun y => .bind (.value rfl rfl fun x => .bind (.value rfl rfl
      fun yIn => .bind (.value rfl rfl fun xIn => .bind (.value rfl rfl fun inside => .bind
        (.value rfl rfl fun row => .bind (.value rfl rfl fun idx => .bind (.value rfl rfl
          fun safe => .bind (.value rfl rfl fun ptr => .bind (.value rfl rfl fun raw =>
            .forget (.value rfl rfl fun i => ⟨P, ?_, hQ _⟩)))))))))))
    rintro f ⟨-, -, -, -, -, -, -, -, -, -, -, hP⟩
    exact hP

theorem yields_tap {padded : Bool} {Q : Unit → BlockId → Calls → Remark → Prop}
    (hQ : Q () here .none fun f => f.Taps here oy ox ky kx ∧
      (∃ i v j, f.Holds here i (.store v (.inst j)) ∧ f.Holds here j (.gep dst cell)) ∧ P f) :
    Build.Yields (tap k padded here src wts dst oy ox ky kx cell) here P Q := by
  refine .bind (.value rfl rfl fun oyS => .bind (.value rfl rfl fun iy => .bind (.value rfl rfl
    fun oxS => .bind (.value rfl rfl fun ix => .ite_bind (yields_load fun x => .bind (.value rfl rfl
      fun wRow => .bind (.value rfl rfl fun wIdx => .bind (.value rfl rfl fun wPtr => .bind
        (.value rfl rfl fun w => .bind (.value rfl rfl fun prod => .bind (.value rfl rfl
          fun accPtr => .bind (.value rfl rfl fun acc => .bind (.value rfl rfl fun sum =>
            ?_)))))))))))))
  refine .forget (.effect rfl rfl fun i => ⟨_, ?_, hQ⟩)
  rintro f ⟨hstore, -, -, haccPtr, -, -, -, -, -, hix, hoxS, hiy, hoyS, hP⟩
  refine ⟨⟨hoyS.uses ?_, hoxS.uses ?_, hiy.uses ?_, hix.uses ?_⟩, ⟨i, _, _, hstore, haccPtr⟩, hP⟩ <;>
    simp [Op.operands]

theorem yields_constants {pl : Plan} {Q : Constants → BlockId → Calls → Remark → Prop}
    (hQ : ∀ k, Q k here .none P) : Build.Yields (constants pl) here P Q :=
  .bind (.constant fun zero => .bind (.dims fun input => .bind (.dims fun kernel =>
    .bind (.dims fun stride => .bind (.dims fun padding => .bind (.dims fun out =>
      .bind (.constant fun zeroF =>
        .pure (hQ ⟨zero, input, kernel, stride, padding, out, zeroF⟩))))))))

theorem forms_code (pl : Plan) :
    Build.Forms (code pl) fun calls f => ∃ outer d, calls.Nest outer d ∧ f.Woven outer d := by
  refine .block (.bind (.elements fun src => .bind (.elements fun wts => .bind (.elements fun dst =>
    .bind (yields_constants fun k => .bind (.loop fun body₁ oy => .bind (.loop fun body₂ ox =>
      .bind (.value rfl rfl fun row => .bind (.value rfl rfl fun cell => .bind (.value rfl rfl
        fun outPtr => .bind (.effect rfl rfl fun i => .bind (.loop fun body₃ ky => .bind (.loop
          fun body₄ kx => .bind (yields_tap (.pure ⟨rfl, ?_⟩)))))))))))))))
  rintro r₄ rfl rfl
  refine .pure ⟨rfl, ?_⟩
  rintro r₃ rfl rfl
  refine .pure ⟨rfl, ?_⟩
  rintro r₂ rfl rfl
  refine .pure ⟨rfl, ?_⟩
  rintro r₁ rfl rfl
  refine .ret fun f hf => ?_
  obtain ⟨htaps, ⟨j, v, m, hstore, hgep⟩, -, -, hcell, -, hdst, -⟩ := hf
  refine ⟨_, _, .cons _ (.cons _ (.cons _ (.last _))), ?_, j, v, _, hstore,
    .inr ⟨m, _, _, rfl, hgep, .inl hdst, .inr ?_⟩⟩
  · simpa using ⟨htaps.oy, htaps.ox, htaps.ky, htaps.kx⟩
  · exact ⟨_, List.mem_cons_of_mem _ List.mem_cons_self, hcell.computes⟩

end Conv2d

end LoopNest
