import Kagari.Mir.ConstantsSound
import Kagari.Mir.Dead
import Kagari.Runtime.OperandsSound

/-!
# Representations along a run

What has been written, temporaries and locals, has the representation of its type wherever the
interpreter is (`Located`). On operands of their types, the operations without effects only write
their result, unless they compare generic operands (`pureRow`).
-/

namespace Kagari.Mir

open Lib Kagari.Runtime Context Instruction Option

variable {ty : ValueType} {cond : Comparison} {operation : ScalarOperation}

section Values

variable {P H W : Type}

theorem decode_representation {bits : BitVec 64} {value : Value H}
    (h : decode ty bits = some value) : value.hasRepresentation ty = true := by
  cases ty with
  | bool =>
    have hbits : (if bits.toNat ≤ 1 then some (.bool (bits.toNat ≠ 0)) else none) = some value := h
    split at hbits
    · cases hbits
      rfl
    · cases hbits
  | char =>
    obtain ⟨c, -, rfl⟩ := map_eq_some_iff.mp h
    rfl
  | _ => cases h <;> rfl

theorem constant_representation (w : World P H W) (c : Constant) :
    (w.constant c).hasRepresentation c.ty = true := by
  cases c <;> rfl

/-- What is done outside leaves the locals of the frame in their representation. -/
def World.KeepsLocals (w : World P H W) : Prop :=
  ∀ shape inputs locals world value locals' world',
    w.perform shape inputs locals world = some (value, locals', world') →
    ∀ l ty, (locals l).hasRepresentation ty = true → (locals' l).hasRepresentation ty = true

/-- The arguments have the representation of their parameters. -/
def MirFunction.Arguments (f : MirFunction P) (locals : LocalId → Value H) : Prop :=
  ∀ param ∈ f.params, ∀ ty, f.locals[param.localId]? = some ⟨ty⟩ →
    (locals param.localId).hasRepresentation ty = true

/-- For every world, all arguments of their types and every answer of the world, the interpreter shows
the same of both functions. -/
def SameOnArguments (f f' : MirFunction P) : Prop :=
  ∀ (H W : Type) (w : World P H W) (env : TempId → Value H) (locals : LocalId → Value H) (world : W),
    w.KeepsLocals → f.Arguments locals →
    Machine.SameBehaviour (interpret w f) (start f env locals world)
      (interpret w f') (start f' env locals world)

/-- What the trace has written has the representation of its type. -/
structure TypedAt (f : MirFunction P) (trace : List Point) (s : State (Value H) W) : Prop where
  temps : ∀ t ty, f.temps[t]? = some ⟨ty⟩ → WrittenIn f trace t → (s.env t).hasRepresentation ty = true
  locals : ∀ l ty, f.locals[l]? = some ⟨ty⟩ → LocalWritten f trace l →
    (s.locals l).hasRepresentation ty = true

/-- Where a run is: at the end of a path, with typed values. -/
def Located (f : MirFunction P) (s : State (Value H) W) : Prop :=
  ∃ trace, Path f s.block s.index trace ∧ TypedAt f trace s

theorem typedAt_start {f : MirFunction P} {env : TempId → Value H} {locals : LocalId → Value H}
    {world : W} (h : f.Arguments locals) : TypedAt f [] (start f env locals world) := by
  constructor
  · rintro t ty - ⟨p, hp, -⟩
    cases hp
  · rintro l ty hty (⟨param, hparam, rfl⟩ | ⟨p, hp, -⟩)
    · exact h param hparam ty hty
    · cases hp

end Values

/-! ## One row -/

section Rows

variable {P H W : Type} {w : World P H W} {f : MirFunction P} {checks : Checks P} {context : Context}
  {row : Row P} {s s' : State (Value H) W} {events : List (Event P (Value H))}

/-- Comparisons give booleans. -/
theorem compare_ty {i : Instruction P} (hok : OperationOk checks.scalar f i) {world : W}
    {lhs rhs : Value H} {result : Option Bool} (h : w.compare i world lhs rhs = some result) :
    ∀ dst, i.output = some dst → dst.ty = .bool := by
  intro dst hout
  have hctr := hok.scalar
  unfold World.compare at h
  split at h
  all_goals first | (cases h; done) | skip
  all_goals
    cases hout
    obtain ⟨ty, hres, hdst⟩ := bind_ok.mp hctr
    rw [Scalar.expectType_ok hdst]
    unfold binaryResult at hres
    obtain ⟨_, -, hres⟩ := bind_ok.mp hres
    simp only [reduceCtorEq, or_false, false_and, if_false, or_true, true_and] at hres
    split at hres
    · exact (Except.ok.inj hres).symm
    · cases hres

theorem output_shape (i : Instruction P) : i.shape.output = i.output.map blank := by
  unfold shape
  exact output_rewrite _ _ i

/-- A row writes a value of its destination's representation. -/
theorem interpretRow_written (hok : InstructionOk checks.scalar f row.instruction)
    (hinps : ∀ v ∈ row.instruction.inputs, (s.env v.temp).hasRepresentation v.ty = true)
    (hload : ∀ dst l, row.instruction = .loadLocal dst l →
      (s.locals l).hasRepresentation dst.ty = true)
    (hstep : interpretRow w row s = .next s' events) {dst : MirValue}
    (hout : row.instruction.output = some dst) : (s'.env dst.temp).hasRepresentation dst.ty = true := by
  have hwrtn : ∀ value : Value H, s'.env = Function.update s.env dst.temp value →
      value.hasRepresentation dst.ty = true → (s'.env dst.temp).hasRepresentation dst.ty = true := by
    intro value henv hval
    rw [henv, Function.update_self]
    exact hval
  unfold interpretRow at hstep
  split at hstep
  · rename_i value hcompute
    obtain ⟨rfl, -⟩ := Step.next.inj hstep
    refine hwrtn value (by rw [hout]; rfl) ?_
    unfold World.compute at hcompute
    split at hcompute
    · obtain ⟨dst', hdst', hval⟩ := map_eq_some_iff.mp hcompute
      cases hout.symm.trans hdst'
      unfold World.evaluate at hval
      obtain ⟨first, -, hval⟩ := bind_eq_some_iff.mp hval
      obtain ⟨lhs, -, hval⟩ := bind_eq_some_iff.mp hval
      obtain ⟨rhs, -, hval⟩ := bind_eq_some_iff.mp hval
      obtain ⟨bits, -, hval⟩ := bind_eq_some_iff.mp hval
      exact decode_representation hval
    · split at hcompute
      · obtain ⟨result, hcmp, hval⟩ := map_eq_some_iff.mp hcompute
        obtain ⟨holds, -, rfl⟩ := map_eq_some_iff.mp hval
        rw [compare_ty hok.operation hcmp dst hout]
        rfl
      · cases hcompute
  · cases hstep
  · unfold stepRow at hstep
    split at hstep
    · rename_i dst' c hact
      rw [action_constant] at hact
      obtain ⟨rfl, -⟩ := Step.next.inj hstep
      have hop := hok.operation
      rw [hact] at hop hout
      obtain rfl := some.inj hout
      refine hwrtn _ rfl ?_
      rw [show dst'.ty = c.ty from hop]
      exact constant_representation w c
    · rename_i dst' l hact
      rw [action_readLocal] at hact
      obtain ⟨rfl, -⟩ := Step.next.inj hstep
      rw [hact] at hout
      obtain rfl := some.inj hout
      exact hwrtn _ rfl (hload dst' l hact)
    · rename_i dst' src hact
      rw [action_copy] at hact
      obtain ⟨rfl, -⟩ := Step.next.inj hstep
      have hop := hok.operation
      rw [hact] at hop hout hinps
      obtain rfl := some.inj hout
      refine hwrtn _ rfl ?_
      rw [show dst'.ty = src.ty from hop]
      exact hinps src (by simp [inputs])
    · rename_i l src hact
      rw [action_writeLocal] at hact
      rw [hact] at hout
      cases hout
    · dsimp only at hstep
      split at hstep
      · cases hstep
      · rename_i result hperf
        obtain ⟨rfl, -⟩ := Step.next.inj hstep
        refine hwrtn result.1 (by simp [State.performed, hout]) ?_
        obtain ⟨-, hfilter⟩ := filter_eq_some_iff.mp hperf
        rw [output_shape, hout] at hfilter
        exact hfilter

/-- A row leaves the locals in their representation. -/
theorem interpretRow_locals (hw : w.KeepsLocals) (hok : InstructionOk checks.scalar f row.instruction)
    (hinps : ∀ v ∈ row.instruction.inputs, (s.env v.temp).hasRepresentation v.ty = true)
    (hstep : interpretRow w row s = .next s' events) {l : LocalId}
    (hl : f.locals[l]? = some ⟨ty⟩)
    (hval : (∀ src, row.instruction ≠ .storeLocal l src) → (s.locals l).hasRepresentation ty = true) :
    (s'.locals l).hasRepresentation ty = true := by
  by_cases hsto : ∃ src, row.instruction = .storeLocal l src
  · obtain ⟨src, hsto⟩ := hsto
    have hop := hok.operation
    rw [hsto] at hop hinps
    have hty : ty = src.ty := congrArg MirLocal.ty (some.inj (hl.symm.trans hop))
    rw [interpretRow_external (compute_of_action (by rw [hsto]; nofun) _ _)] at hstep
    unfold stepRow at hstep
    rw [hsto] at hstep
    cases hstep
    show (Function.update s.locals l (s.env src.temp) l).hasRepresentation ty = true
    rw [Function.update_self, hty]
    exact hinps src (by simp [inputs])
  · have hnot : ∀ src, row.instruction ≠ .storeLocal l src := fun src heq => hsto ⟨src, heq⟩
    have hbef := hval hnot
    cases hcalls : row.instruction.effects.calls with
    | false =>
      rw [(interpretRow_framed hstep).locals l hcalls hnot]
      exact hbef
    | true =>
      unfold interpretRow at hstep
      split at hstep
      · cases hstep
        unfold State.assignOutput
        cases row.instruction.output <;> exact hbef
      · cases hstep
      · unfold stepRow at hstep
        split at hstep
        · cases hstep
          exact hbef
        · cases hstep
          exact hbef
        · cases hstep
          exact hbef
        · rename_i l' src hact
          rw [action_writeLocal.mp hact] at hcalls
          cases hcalls
        · dsimp only at hstep
          split at hstep
          · cases hstep
          · rename_i result hperf
            cases hstep
            obtain ⟨hperf, -⟩ := filter_eq_some_iff.mp hperf
            obtain ⟨value, locals', world'⟩ := result
            show (if row.instruction.effects.calls then locals' else s.locals) l |>.hasRepresentation ty
            rw [if_pos hcalls]
            exact hw _ _ _ _ _ _ _ hperf l ty hbef

end Rows

/-! ## Runs -/

section Runs

variable {P H W : Type} {w : World P H W} {f : MirFunction P} {checks : Checks P} {context : Context}
  {r : Row P} {s s' : State (Value H) W} {events : List (Event P (Value H))} {trace : List Point}

theorem TypedAt.inputs (h : TypedAt f trace s) (hwell : WellFormed checks f context)
    (hpath : Path f s.block s.index trace) (hrow : (f.rowsAt s.block)[s.index]? = some r) :
    ∀ v ∈ r.instruction.inputs, (s.env v.temp).hasRepresentation v.ty = true :=
  fun v hv => h.temps v.temp v.ty ((hwell.row_ok hrow).inputs v hv) (hwell.input_written hpath hrow hv)

/-- A row keeps what is written in its representation. -/
theorem TypedAt.row (h : TypedAt f trace s) (hw : w.KeepsLocals)
    (hwell : WellFormed checks.scalar f context) (hpath : Path f s.block s.index trace)
    (hrow : (f.rowsAt s.block)[s.index]? = some r) (hstep : interpretRow w r s = .next s' events) :
    TypedAt f (trace ++ [(s.block, s.index)]) s' := by
  have hok := hwell.row_ok hrow
  have hinps := h.inputs hwell hpath hrow
  have hload : ∀ dst l, r.instruction = .loadLocal dst l →
      (s.locals l).hasRepresentation dst.ty = true := by
    intro dst l hi
    have hop := hok.operation
    rw [hi] at hop
    exact h.locals l dst.ty hop (hwell.localWritten ((hwell.reads.row _ _ _ _ hpath hrow).2 dst l hi))
  constructor
  · intro t ty hty hwrtn
    by_cases hdst : ∃ dst, r.instruction.output = some dst ∧ dst.temp = t
    · obtain ⟨dst, hout, rfl⟩ := hdst
      have htyped : f.temps[dst.temp]? = some ⟨dst.ty⟩ := hok.output dst hout
      rw [show ty = dst.ty from congrArg MirTemp.ty (some.inj (hty.symm.trans htyped))]
      exact interpretRow_written hok hinps hload hstep hout
    · have hne : ∀ dst ∈ r.instruction.output, dst.temp ≠ t :=
        fun dst hout heq => hdst ⟨dst, hout, heq⟩
      rw [(interpretRow_framed hstep).env t hne]
      refine h.temps t ty hty ((writtenIn_snoc.mp hwrtn).resolve_right ?_)
      rintro ⟨row', dst, hrow', hout, heq⟩
      cases hrow.symm.trans hrow'
      exact hne dst hout heq
  · intro l ty hty hwrtn
    refine interpretRow_locals hw hok hinps hstep hty fun hnot => h.locals l ty hty ?_
    rcases hwrtn with hparam | ⟨p, hp, row', src, hrow', hsto⟩
    · exact .inl hparam
    · rcases List.mem_append.mp hp with hp | hp
      · exact .inr ⟨p, hp, row', src, hrow', hsto⟩
      · obtain rfl := List.mem_singleton.mp hp
        cases hrow.symm.trans hrow'
        exact absurd hsto (hnot src)

theorem stepTerminator_next {x : External P (Value H) W} {terminator : Option Terminator}
    {span : Option Span} (h : stepTerminator x terminator span s = .next s' events) :
    ∃ target, target ∈ terminator.elim [] (·.successors) ∧ s' = s.goto target ∧ events = [] := by
  unfold stepTerminator at h
  split at h
  · cases h
  · rename_i target
    cases h
    exact ⟨target, by simp [Terminator.successors], rfl, rfl⟩
  · rename_i cond thenBlock elseBlock
    cases h
    refine ⟨_, ?_, rfl, rfl⟩
    simp only [elim_some, Terminator.successors]
    split <;> simp
  · cases h
  · cases h

/-- The row that runs here; a terminator is none. -/
def rowPoint (f : MirFunction P) (s : State (Value H) W) : List Point :=
  if s.index < (f.rowsAt s.block).length then [(s.block, s.index)] else []

/-- A step goes on with the path. -/
theorem TypedAt.next (h : TypedAt f trace s) (hpath : Path f s.block s.index trace) (hw : w.KeepsLocals)
    (hwell : WellFormed checks.scalar f context) (hstep : interpret w f s = .next s' events) :
    Path f s'.block s'.index (trace ++ rowPoint f s) ∧ TypedAt f (trace ++ rowPoint f s) s' := by
  unfold rowPoint
  unfold interpret at hstep
  split at hstep
  · rename_i row hrow
    have hfr := interpretRow_framed hstep
    have hlt := (List.getElem?_eq_some_iff.mp hrow).1
    rw [if_pos hlt, hfr.block, hfr.index]
    exact ⟨hpath.next hlt, h.row hw hwell hpath hrow hstep⟩
  · rename_i hrow
    obtain ⟨target, htgt, rfl, -⟩ := stepTerminator_next hstep
    have hle := List.getElem?_eq_none_iff.mp hrow
    rw [if_neg (Nat.not_lt_of_le hle), List.append_nil]
    rw [le_antisymm hpath.index_le hle] at hpath
    exact ⟨hpath.jump htgt, h.temps, h.locals⟩

theorem Located.next (h : Located f s) (hw : w.KeepsLocals)
    (hwell : WellFormed checks.scalar f context) (hstep : interpret w f s = .next s' events) :
    Located f s' := by
  obtain ⟨trace, hpath, htyped⟩ := h
  exact ⟨_, htyped.next hpath hw hwell hstep⟩

end Runs

/-! ## Operations without effects -/

section Pure

variable {P H W : Type} {w : World P H W} {f : MirFunction P} {checks : Checks P}

/-- On operands of their types, the row only writes its result. -/
def PureRow (row : Row P) : Prop :=
  ∀ (H W : Type) (w : World P H W) (s : State (Value H) W),
    (∀ v ∈ row.instruction.inputs, (s.env v.temp).hasRepresentation v.ty = true) →
    ∃ dst value, row.instruction.output = some dst ∧
      interpretRow w row s = .next (s.assign dst value) []

/-- An equality test of operands whose type is a parameter. -/
def genericEquality : Instruction P → Bool
  | .binary _ .eq lhs _ => lhs.ty == .generic
  | .binary _ .notEq lhs _ => lhs.ty == .generic
  | _ => false

theorem effects_empty {i : Instruction P} (h : i.effects = {}) :
    (∃ dst c, i = .loadConst dst c) ∨ (∃ dst src, i = .move dst src) ∨
    (∃ dst op operand, i = .unary dst op operand) ∨ ∃ dst op lhs rhs, i = .binary dst op lhs rhs := by
  cases i with
  | loadConst dst c => exact .inl ⟨dst, c, rfl⟩
  | move dst src => exact .inr (.inl ⟨dst, src, rfl⟩)
  | unary dst op operand => exact .inr (.inr (.inl ⟨dst, op, operand, rfl⟩))
  | binary dst op lhs rhs => exact .inr (.inr (.inr ⟨dst, op, lhs, rhs, rfl⟩))
  | call dst callee args =>
    exfalso
    cases callee with
    | runtimePrimitive primitive => cases primitive <;> cases h
    | runtimeHelper helper => cases helper <;> cases h
    | _ => cases h
  | readAggregateField dst base field =>
    have heffs : (if field.reference.isSome then EffectSet.nativeCall else .aggregateRead) = {} := h
    split at heffs <;> cases heffs
  | writeAggregateField base field value =>
    have heffs : (if field.reference.isSome then EffectSet.nativeCall else .aggregateWrite) = {} := h
    split at heffs <;> cases heffs
  | _ => cases h

variable {row : Row P} {s : State (Value H) W}

variable {value : Value H}

/-- A value of a scalar type has a payload. -/
theorem encode_of_representation
    (hty : (scalarType ty).isSome) (h : value.hasRepresentation ty = true) :
    ∃ bits, value.encode = some bits := by
  cases ty <;> cases hty <;> cases value <;> first | exact ⟨_, rfl⟩ | cases h

/-- An operation on one or two operands that gives a payload of the destination. -/
theorem interpretRow_payload (operation : ScalarOperation) (value : Value H) {dst : MirValue}
    (hout : row.instruction.output = some dst)
    (htys : ∀ v ∈ row.instruction.inputs ++ [dst], (scalarType v.ty).isSome)
    (hselect : selectOperation row.instruction = some operation)
    (hval : w.evaluate operation dst.ty (s.read row.instruction.inputs) = some value) :
    ∃ value, interpretRow w row s = .next (s.assign dst value) [] := by
  refine ⟨value, interpretRow_prepared (Constants.prepare_eq ?_ hselect) hout hval⟩
  rw [hout]
  exact htys

/-- The prepared operation gives a payload that decodes. -/
theorem evaluate_some {lhs rhs : Value H}
    {left right bits : BitVec 64} (hl : lhs.encode = some left)
    (hr : rhs.encode = some right) (heval : operation.evaluate w.floats left right = .ok bits)
    (hdec : decode ty bits = some value) : w.evaluate operation ty [lhs, rhs] = some value := by
  unfold World.evaluate
  simp [hl, hr, heval, hdec, Except.toOption]

theorem evaluate_some_unary {operand : Value H}
    {left bits : BitVec 64} (hl : operand.encode = some left)
    (heval : operation.evaluate w.floats left left = .ok bits) (hdec : decode ty bits = some value) :
    w.evaluate operation ty [operand] = some value := by
  unfold World.evaluate
  simp [hl, heval, hdec, Except.toOption]

theorem unary_pure {dst : MirValue} {op : UnaryOp} {operand : MirValue}
    (hi : row.instruction = .unary dst op operand) (hctr : scalarContract row.instruction = .ok ())
    (heffs : row.instruction.effects = {})
    (hopnd : (s.env operand.temp).hasRepresentation operand.ty = true) :
    ∃ value, interpretRow w row s = .next (s.assign dst value) [] := by
  rw [hi] at hctr heffs
  obtain ⟨ty, hres, hdst⟩ := bind_ok.mp hctr
  have hty : dst.ty = operand.ty := by
    rw [Scalar.expectType_ok hdst, Constants.unaryResult_ok hres]
  have hread : s.read row.instruction.inputs = [s.env operand.temp] := by
    rw [hi]
    rfl
  have htys : (scalarType operand.ty).isSome →
      ∀ v ∈ row.instruction.inputs ++ [dst], (scalarType v.ty).isSome := by
    intro hscal v hv
    rw [hi] at hv
    have hv : v = operand ∨ v = dst := by simpa [inputs] using hv
    rcases hv with rfl | rfl
    · exact hscal
    · rw [hty]
      exact hscal
  cases op with
  | not =>
    have hbool : operand.ty = .bool := by
      unfold unaryResult at hres
      dsimp only at hres
      split at hres
      · assumption
      · cases hres
    have hscal : (scalarType operand.ty).isSome := by
      rw [hbool]
      rfl
    obtain ⟨bits, hbits⟩ := encode_of_representation hscal hopnd
    refine interpretRow_payload .boolNot (.bool (decide (bits = 0))) (by rw [hi]; rfl)
      (htys hscal) (by rw [hi]; rfl) ?_
    rw [hread, hty, hbool]
    exact evaluate_some_unary hbits rfl (Scalar.decode_bool _)
  | neg =>
    have hflt : operand.ty = .f32 ∨ operand.ty = .f64 := by
      unfold unaryResult at hres
      unfold effects at heffs
      cases hoperandTy : operand.ty <;> simp [hoperandTy, numericType] at hres heffs ⊢
    rcases hflt with hflt | hflt
    · have hscal : (scalarType operand.ty).isSome := by
        rw [hflt]
        rfl
      obtain ⟨bits, hbits⟩ := encode_of_representation hscal hopnd
      refine interpretRow_payload .f32Neg (.f32 ((bits ^^^ (1 <<< 31)).setWidth 32)) (by rw [hi]; rfl)
        (htys hscal) ?_ ?_
      · rw [hi]
        simp [selectOperation, hflt, scalarType, ScalarOperation.negation]
      · rw [hread, hty, hflt]
        exact evaluate_some_unary hbits rfl rfl
    · have hscal : (scalarType operand.ty).isSome := by
        rw [hflt]
        rfl
      obtain ⟨bits, hbits⟩ := encode_of_representation hscal hopnd
      refine interpretRow_payload .f64Neg (.f64 (bits ^^^ (1 <<< 63))) (by rw [hi]; rfl)
        (htys hscal) ?_ ?_
      · rw [hi]
        simp [selectOperation, hflt, scalarType, ScalarOperation.negation]
      · rw [hread, hty, hflt]
        exact evaluate_some_unary hbits rfl rfl

/-! ## Binary operations -/

/-- A value of a representation that folding knows. -/
theorem scalar_of_representation
    (hty : ty = .unit ∨ ty = .bool ∨ ty = .char ∨ ty = .i32 ∨ ty = .i64 ∨ ty = .u64)
    (h : value.hasRepresentation ty = true) : ∃ c : Scalar, c.ty = ty ∧ value = c.value := by
  rcases hty with rfl | rfl | rfl | rfl | rfl | rfl <;> cases value <;> first | (cases h; done) | skip
  · exact ⟨.unit, rfl, rfl⟩
  · rename_i value
    exact ⟨.bool value, rfl, rfl⟩
  · rename_i value
    exact ⟨.char value, rfl, rfl⟩
  · rename_i value
    exact ⟨.i32 (.ofBitVec value), rfl, rfl⟩
  · rename_i value
    exact ⟨.i64 (.ofBitVec value), rfl, rfl⟩
  · rename_i value
    exact ⟨.u64 (UInt64.ofBitVec value), rfl, rfl⟩

theorem comparison_some {c d : Scalar} (h : c.ty = d.ty) : ∃ ordering, c.comparison d = some ordering := by
  cases c <;> cases d <;> first | exact ⟨_, rfl⟩ | cases h

theorem condition_some {op : BinaryOp} (h : Scalar.comparisonOf op = some cond)
    (ordering : Ordering) : ∃ holds, Scalar.condition op ordering = some holds := by
  cases op <;> cases h <;> exact ⟨_, rfl⟩

variable {dst lhs rhs : MirValue} {op : BinaryOp}

/-- Comparisons of scalars. -/
theorem comparison_pure (hi : row.instruction = .binary dst op lhs rhs)
    (hcond : Scalar.comparisonOf op = some cond) (hscal : (scalarType lhs.ty).isSome)
    (hres : binaryResult op lhs.ty lhs.ty = .ok .bool) (hrhsTy : rhs.ty = lhs.ty)
    (hdst : dst.ty = .bool)
    (hlhs : (s.env lhs.temp).hasRepresentation lhs.ty = true)
    (hrhs : (s.env rhs.temp).hasRepresentation rhs.ty = true) :
    ∃ value, interpretRow w row s = .next (s.assign dst value) [] := by
  have htys : ∀ v ∈ row.instruction.inputs ++ [dst], (scalarType v.ty).isSome := by
    intro v hv
    rw [hi] at hv
    have hv : v = lhs ∨ v = rhs ∨ v = dst := by simpa [inputs] using hv
    rcases hv with rfl | rfl | rfl
    · exact hscal
    · rw [hrhsTy]
      exact hscal
    · rw [hdst]
      rfl
  have hread : s.read row.instruction.inputs = [s.env lhs.temp, s.env rhs.temp] := by
    rw [hi]
    rfl
  have hfold : (lhs.ty = .unit ∨ lhs.ty = .bool ∨ lhs.ty = .char ∨ lhs.ty = .i32 ∨ lhs.ty = .i64 ∨
      lhs.ty = .u64) → ∃ value, interpretRow w row s = .next (s.assign dst value) [] := by
    intro hty
    obtain ⟨c, hc, hcvalue⟩ := scalar_of_representation hty hlhs
    obtain ⟨d, hd, hdvalue⟩ := scalar_of_representation hty (hrhsTy ▸ hrhs)
    obtain ⟨ordering, hordering⟩ := comparison_some (hc.trans hd.symm)
    obtain ⟨holds, hhld⟩ := condition_some hcond ordering
    obtain ⟨selected, hsel, hrun⟩ := Scalar.comparison_sound w hordering hhld
      (by rw [hc]; exact hres) dst rhs hc.symm
    refine interpretRow_payload selected (.bool holds) (by rw [hi]; rfl) htys
      (by rw [hi]; exact hsel) ?_
    rw [hread, hdst, hcvalue, hdvalue]
    exact hrun
  have hflt : ∀ (input : BuiltinType) (domain : ComparisonDomain), scalarType lhs.ty = some input →
      ComparisonDomain.of input cond = some domain →
      (∀ left right, ∃ holds, domain.evaluate w.floats cond left right = .ok (boolPayload holds)) →
      ∃ value, interpretRow w row s = .next (s.assign dst value) [] := by
    intro input domain hinp hdom heval
    obtain ⟨left, hleft⟩ := encode_of_representation hscal hlhs
    obtain ⟨right, hrt⟩ := encode_of_representation hscal (hrhsTy ▸ hrhs)
    obtain ⟨holds, hhld⟩ := heval left right
    refine interpretRow_payload (.compare domain cond) (.bool holds) (by rw [hi]; rfl) htys ?_ ?_
    · rw [hi]
      exact Scalar.select_comparison hcond dst rhs hinp hdom
    · rw [hread, hdst]
      exact evaluate_some hleft hrt hhld (Scalar.decode_bool _)
  cases hty : lhs.ty with
  | unit => exact hfold (.inl hty)
  | bool => exact hfold (.inr (.inl hty))
  | char => exact hfold (.inr (.inr (.inl hty)))
  | i32 => exact hfold (.inr (.inr (.inr (.inl hty))))
  | i64 => exact hfold (.inr (.inr (.inr (.inr (.inl hty)))))
  | u64 => exact hfold (.inr (.inr (.inr (.inr (.inr hty)))))
  | f32 => exact hflt .f32 .f32 (by rw [hty]; rfl) rfl fun left right => ⟨_, rfl⟩
  | f64 => exact hflt .f64 .f64 (by rw [hty]; rfl) rfl fun left right => ⟨_, rfl⟩
  | never | str | heapObject | hostHandle | generic =>
    rw [hty] at hscal
    cases hscal

/-- Arithmetic of floats. -/
theorem float_pure (hi : row.instruction = .binary dst op lhs rhs) {arith : IntegerBinaryOp}
    (harith : Scalar.arithmetic op = some arith) (hflt : lhs.ty = .f32 ∨ lhs.ty = .f64)
    (hrhsTy : rhs.ty = lhs.ty) (hdst : dst.ty = lhs.ty)
    (hlhs : (s.env lhs.temp).hasRepresentation lhs.ty = true)
    (hrhs : (s.env rhs.temp).hasRepresentation rhs.ty = true) :
    ∃ value, interpretRow w row s = .next (s.assign dst value) [] := by
  have hscal : (scalarType lhs.ty).isSome := by
    rcases hflt with hflt | hflt <;> rw [hflt] <;> rfl
  have htys : ∀ v ∈ row.instruction.inputs ++ [dst], (scalarType v.ty).isSome := by
    intro v hv
    rw [hi] at hv
    have hv : v = lhs ∨ v = rhs ∨ v = dst := by simpa [inputs] using hv
    rcases hv with rfl | rfl | rfl
    · exact hscal
    · rw [hrhsTy]
      exact hscal
    · rw [hdst]
      exact hscal
  have hread : s.read row.instruction.inputs = [s.env lhs.temp, s.env rhs.temp] := by
    rw [hi]
    rfl
  obtain ⟨left, hleft⟩ := encode_of_representation hscal hlhs
  obtain ⟨right, hrt⟩ := encode_of_representation hscal (hrhsTy ▸ hrhs)
  obtain ⟨domain, operation, hselect⟩ : ∃ domain operation,
      selectOperation row.instruction = some (.float domain operation) := by
    rw [hi]
    rcases hflt with hflt | hflt <;> cases op <;> cases harith <;>
      simp [selectOperation, BinaryOp.scalar, hflt, scalarType, ScalarOperation.binary,
        ScalarBinaryOp.condition, FloatType.fromBuiltin, ScalarBinaryOp.float]
  obtain ⟨value, hval⟩ : ∃ value : Value H,
      decode dst.ty (evaluateFloat w.floats operation domain left right) = some value := by
    rw [hdst]
    rcases hflt with hflt | hflt <;> rw [hflt] <;> exact ⟨_, rfl⟩
  refine interpretRow_payload _ value (by rw [hi]; rfl) htys hselect ?_
  rw [hread]
  exact evaluate_some hleft hrt rfl hval

/-- A comparison through the heap is not prepared. -/
theorem prepare_binary_none (hlhs : scalarType lhs.ty = none) :
    prepare (.binary dst op lhs rhs : Instruction P) = none := by
  unfold prepare
  rw [if_neg]
  simp [inputs, hlhs]

/-- Equality of strings. -/
theorem string_pure (hi : row.instruction = .binary dst op lhs rhs) (hop : op = .eq ∨ op = .notEq)
    (hty : lhs.ty = .str) (hrhsTy : rhs.ty = .str)
    (hlhs : (s.env lhs.temp).hasRepresentation lhs.ty = true)
    (hrhs : (s.env rhs.temp).hasRepresentation rhs.ty = true) :
    ∃ value, interpretRow w row s = .next (s.assign dst value) [] := by
  have hstr : ∀ value : Value H, value.hasRepresentation .str = true → ∃ id, value = .str id := by
    intro value h
    cases value <;> first | exact ⟨_, rfl⟩ | cases h
  obtain ⟨a, ha⟩ := hstr _ (hty ▸ hlhs)
  obtain ⟨b, hb⟩ := hstr _ (hrhsTy ▸ hrhs)
  obtain ⟨holds, hhld⟩ := isSome_iff_exists.mp (w.equal_str s.world a b)
  have hprep : prepare row.instruction = none := by
    rw [hi]
    exact prepare_binary_none (by rw [hty]; rfl)
  have hread : s.read row.instruction.inputs = [.str a, .str b] := by
    rw [hi]
    exact congrArg₂ (fun v u => [v, u]) ha hb
  obtain ⟨result, hcmp⟩ : ∃ result, w.compare row.instruction s.world (.str a) (.str b) =
      some (some result) := by
    rw [hi]
    rcases hop with rfl | rfl
    · exact ⟨holds, congrArg some hhld⟩
    · exact ⟨!holds, by simp [World.compare, hhld]⟩
  refine ⟨.bool result, ?_⟩
  unfold interpretRow World.compute
  rw [hprep, hread]
  dsimp only
  rw [hcmp, hi]
  rfl

theorem binary_pure (hi : row.instruction = .binary dst op lhs rhs)
    (hctr : scalarContract row.instruction = .ok ()) (heffs : row.instruction.effects = {})
    (hgnrc : genericEquality row.instruction = false)
    (hlhs : (s.env lhs.temp).hasRepresentation lhs.ty = true)
    (hrhs : (s.env rhs.temp).hasRepresentation rhs.ty = true) :
    ∃ value, interpretRow w row s = .next (s.assign dst value) [] := by
  rw [hi] at hctr heffs hgnrc
  obtain ⟨ty, hres, hdst⟩ := bind_ok.mp hctr
  rw [← Scalar.expectType_ok hdst] at hres
  have hnumeric : ∀ operation, op ≠ .numeric operation := by
    rintro operation rfl
    simp [effects] at heffs
  obtain ⟨hrhsTy, hcompareTy, harithTy⟩ := Scalar.binaryResult_plain hnumeric hres
  rw [hrhsTy] at hres
  cases hcond : Scalar.comparisonOf op with
  | some cond =>
    have hbool := hcompareTy (by rw [hcond]; rfl)
    rw [hbool] at hres
    cases hscal : scalarType lhs.ty with
    | some input =>
      exact comparison_pure hi hcond (by rw [hscal]; rfl) hres hrhsTy hbool hlhs hrhs
    | none =>
      have hstr : lhs.ty = .str ∧ (op = .eq ∨ op = .notEq) := by
        cases hty : lhs.ty with
        | never =>
          rw [hty] at hlhs
          cases hval : s.env lhs.temp <;> rw [hval] at hlhs <;> cases hlhs
        | str =>
          refine ⟨rfl, ?_⟩
          rw [hty] at hres
          cases op <;> cases hcond <;> first | exact .inl rfl | exact .inr rfl | cases hres
        | heapObject =>
          rw [hty] at hres
          exfalso
          cases op <;> cases hcond <;>
            first | (cases hres; done) | simp [effects, hty] at heffs
        | hostHandle =>
          rw [hty] at hres
          cases op <;> cases hcond <;> cases hres
        | generic =>
          rw [hty] at hres
          exfalso
          cases op <;> cases hcond <;>
            first | (cases hres; done) | simp [genericEquality, hty] at hgnrc
        | _ =>
          rw [hty] at hscal
          cases hscal
      exact string_pure hi hstr.2 hstr.1 (hrhsTy.trans hstr.1) hlhs hrhs
  | none =>
    cases harith : Scalar.arithmetic op with
    | some arith =>
      have hflt : lhs.ty = .f32 ∨ lhs.ty = .f64 := by
        cases hty : lhs.ty with
        | f32 => exact .inl rfl
        | f64 => exact .inr rfl
        | i32 | i64 | u64 =>
          exfalso
          cases op <;> cases harith <;> simp [effects, hty] at heffs
        | _ =>
          rw [hty] at hres
          cases op <;> cases harith <;> cases hres
      exact float_pure hi harith hflt hrhsTy (harithTy (by rw [harith]; rfl)) hlhs hrhs
    | none =>
      have hidty : (op = .identityEq ∨ op = .identityNotEq) ∧ lhs.ty = .heapObject := by
        cases op <;> first | (cases hcond; done) | (cases harith; done) | skip
        all_goals cases hty : lhs.ty <;> rw [hty] at hres <;>
          first | exact ⟨.inl rfl, rfl⟩ | exact ⟨.inr rfl, rfl⟩ | exact absurd rfl (hnumeric _) |
            cases hres
      rcases hidty with ⟨rfl | rfl, hty⟩ <;> simp [effects, hty] at heffs

/-- An accepted row without effects is pure, unless it compares generic operands. -/
theorem pureRow (hok : InstructionOk checks.scalar f row.instruction)
    (heffs : row.instruction.effects = {}) (hgnrc : genericEquality row.instruction = false) :
    PureRow row := by
  intro H W w s hinps
  have hctr := hok.operation.scalar
  rcases effects_empty heffs with ⟨dst, c, hi⟩ | ⟨dst, src, hi⟩ | ⟨dst, op, operand, hi⟩ |
    ⟨dst, op, lhs, rhs, hi⟩
  · exact ⟨dst, _, by rw [hi]; rfl, interpretRow_loadConst hi⟩
  · exact ⟨dst, _, by rw [hi]; rfl, interpretRow_move hi⟩
  · rw [hi] at hinps
    obtain ⟨value, hrun⟩ := unary_pure hi hctr heffs
      (hinps operand (by simp [inputs]))
    exact ⟨dst, value, by rw [hi]; rfl, hrun⟩
  · rw [hi] at hinps
    obtain ⟨value, hrun⟩ := binary_pure hi hctr heffs hgnrc
      (hinps lhs (by simp [inputs])) (hinps rhs (by simp [inputs]))
    exact ⟨dst, value, by rw [hi]; rfl, hrun⟩

/-- A world without structures that can be compared. -/
def incomparable : World P Unit Unit where
  floats := ⟨fun _ a _ => a, fun _ a _ => a, fun _ _ _ => false, fun _ _ _ => false⟩
  text _ := ()
  equal _ a b := match a, b with
    | .str _, .str _ => some true
    | _, _ => none
  identical _ _ _ := some true
  perform _ _ _ _ := none
  equal_str _ _ _ := rfl

/-- Equality of generic operands is not pure: two structures have none. -/
theorem not_pureRow (hok : InstructionOk checks.scalar f row.instruction)
    (hgnrc : genericEquality row.instruction = true) : ¬PureRow row := by
  intro hpure
  obtain ⟨dst, op, lhs, rhs, hi, hop, hlhs⟩ : ∃ dst op lhs rhs,
      row.instruction = .binary dst op lhs rhs ∧ (op = .eq ∨ op = .notEq) ∧ lhs.ty = .generic := by
    unfold genericEquality at hgnrc
    split at hgnrc
    · rename_i dst lhs rhs hi
      refine ⟨dst, .eq, lhs, rhs, hi, .inl rfl, ?_⟩
      simpa using hgnrc
    · rename_i dst lhs rhs hi
      refine ⟨dst, .notEq, lhs, rhs, hi, .inr rfl, ?_⟩
      simpa using hgnrc
    · cases hgnrc
  have hctr := hok.operation.scalar
  rw [hi] at hctr
  obtain ⟨ty, hres, -⟩ := bind_ok.mp hctr
  have hnumeric : ∀ operation, op ≠ .numeric operation := by
    rintro operation rfl
    rcases hop with heq | heq <;> cases heq
  have hrhs : rhs.ty = .generic := by
    rw [(Scalar.binaryResult_plain hnumeric hres).1, hlhs]
  obtain ⟨dst', value, -, hrun⟩ := hpure Unit Unit incomparable
    ⟨0, 0, fun _ => .struct (), fun _ => .unit, ()⟩ (by
      rw [hi]
      refine List.forall_mem_cons.mpr ⟨?_, List.forall_mem_singleton.mpr ?_⟩
      · rw [hlhs]
        rfl
      · rw [hrhs]
        rfl)
  have hprep : prepare row.instruction = none := by
    rw [hi]
    exact prepare_binary_none (by rw [hlhs]; rfl)
  unfold interpretRow World.compute at hrun
  rw [hprep, hi] at hrun
  rcases hop with rfl | rfl <;> cases hrun

end Pure

end Kagari.Mir
