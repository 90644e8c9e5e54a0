import Kagari.Mir.ScalarSound
import Kagari.Mir.Paths

/-!
# Folding preserves execution

The table of known values holds of the temporaries wherever the interpreter is (`Holds`): a row that
is folded computes exactly its constant, without a trap, and a branch that is folded goes to the target
of its jump. The two functions run in the same states.
-/

namespace Kagari.Mir

open Lib Kagari.Runtime Context List Option

/-! ## The interpreter, row by row -/

variable {dst : MirValue} {operation : ScalarOperation} (b : BlockId)

section Interpreter

variable {P H W : Type} {w : World P H W} {row : Row P} {s s' : State (Value H) W}
  {events : List (Event P (Value H))}

theorem interpretRow_external
    (h : w.compute row.instruction (s.read row.instruction.inputs) s.world = none) :
    interpretRow w row s = stepRow w.external row s := by
  unfold interpretRow
  rw [h]

theorem interpretRow_prepared {value : Value H}
    (hprep : prepare row.instruction = some operation) (hout : row.instruction.output = some dst)
    (hval : w.evaluate operation dst.ty (s.read row.instruction.inputs) = some value) :
    interpretRow w row s = .next (s.assign dst value) [] := by
  unfold interpretRow World.compute
  rw [hprep, hout]
  dsimp only [map_some]
  rw [hval]
  rfl

/-- The temporaries and locals that a row does not write stay as they are. -/
theorem interpretRow_framed (h : interpretRow w row s = .next s' events) : Framed row s s' := by
  unfold interpretRow at h
  split at h
  · cases h
    unfold State.assignOutput
    cases hout : row.instruction.output with
    | none => exact ⟨rfl, rfl, fun _ _ => rfl, fun _ _ _ => rfl⟩
    | some dst =>
      exact ⟨rfl, rfl, fun t ht => State.assign_env_ne (ht dst hout), fun _ _ _ => rfl⟩
  · cases h
  · exact stepRow_framed h

/-- Constants, moves and locals are not computed. -/
theorem compute_of_action {i : Instruction P} (h : i.action ≠ .operation) (inputs : List (Value H))
    (world : W) : w.compute i inputs world = none := by
  have hselect : selectOperation i = none := by
    cases i <;> first | rfl | exact absurd rfl h
  have hcmp : ∀ lhs rhs, w.compare i world lhs rhs = none := by
    intro lhs rhs
    cases i <;> first | rfl | exact absurd rfl h
  unfold World.compute prepare
  rw [hselect, ite_self]
  dsimp only
  split
  · rw [hcmp]
    rfl
  · rfl

theorem interpretRow_loadConst {c : Constant}
    (h : row.instruction = .loadConst dst c) :
    interpretRow w row s = .next (s.assign dst (w.constant c)) [] := by
  rw [interpretRow_external (compute_of_action (by rw [h]; nofun) _ _)]
  unfold stepRow
  rw [h]
  rfl

theorem interpretRow_move {dst src : MirValue} (h : row.instruction = .move dst src) :
    interpretRow w row s = .next (s.assign dst (s.env src.temp)) [] := by
  rw [interpretRow_external (compute_of_action (by rw [h]; nofun) _ _)]
  unfold stepRow
  rw [h]
  rfl

end Interpreter

namespace Constants

section Fold

variable {P : Type} (f : MirFunction P)

/-! ## What the pass writes -/

/-- What is known after some instructions. -/
def valuesAfter (code : List (Instruction P)) (values : Values) : Values :=
  code.foldl (fun values i => learned f i values) values

def foldCode : List (Instruction P) → Values → List (Instruction P)
  | [], _ => []
  | i :: code, values => folded f i values :: foldCode code (learned f i values)

def foldBlock (block : BasicBlock P) : BasicBlock P :=
  { block with
    instructions := foldCode f block.instructions (fun _ => none)
    terminator := foldTerminator block.terminator (valuesAfter f block.instructions (fun _ => none)) }

def foldFunction : MirFunction P := { f with blocks := f.blocks.map (foldBlock f) }

theorem foldInstructions_spec (code : List (Instruction P)) : ∀ values statistics,
    Ensures (foldInstructions f code values statistics) (fun out =>
      out.1 = foldCode f code values ∧ out.2.1 = valuesAfter f code values) := by
  induction code with
  | nil => exact fun values statistics => .pure ⟨rfl, rfl⟩
  | cons i code ih =>
    intro values statistics
    refine .seq (.seq ?_)
    refine .bind (ih _ _) ?_
    rintro ⟨rest, last, statistics'⟩ ⟨hrest, hlast⟩
    dsimp only at hrest hlast
    subst hrest hlast
    exact .pure ⟨rfl, rfl⟩

theorem foldBlocks_spec (blocks : List (BasicBlock P)) : ∀ statistics,
    Ensures (foldBlocks f blocks statistics) (fun out => out.1 = blocks.map (foldBlock f)) := by
  induction blocks with
  | nil => exact fun statistics => .pure rfl
  | cons block blocks ih =>
    intro statistics
    refine .seq (.bind (foldInstructions_spec f _ _ _) ?_)
    rintro ⟨code, values, statistics'⟩ ⟨hcode, hvals⟩
    dsimp only at hcode hvals
    subst hcode hvals
    refine .seq (.bind (ih _) ?_)
    rintro ⟨rest, statistics''⟩ hrest
    dsimp only at hrest
    subst hrest
    exact .pure rfl

end Fold

theorem simplify_spec {P : Type} (functions : List (MirFunction P)) : ∀ statistics,
    Ensures (simplify functions statistics) (fun out => out.1 = functions.map foldFunction) := by
  induction functions with
  | nil => exact fun statistics => .pure rfl
  | cons f functions ih =>
    intro statistics
    refine .bind (foldBlocks_spec f f.blocks statistics) ?_
    rintro ⟨blocks, statistics'⟩ hblks
    dsimp only at hblks
    subst hblks
    refine .bind (ih statistics') ?_
    rintro ⟨rest, statistics''⟩ hrest
    dsimp only at hrest
    subst hrest
    exact .pure rfl

section Rows

variable {P : Type} {f : MirFunction P}

variable (code : List (Instruction P))

theorem length_foldCode : ∀ values,
    (foldCode f code values).length = code.length := by
  induction code with
  | nil => exact fun values => rfl
  | cons i code ih => exact fun values => congrArg (· + 1) (ih (learned f i values))

theorem getElem?_foldCode : ∀ values (i : Nat),
    (foldCode f code values)[i]? =
      code[i]?.map fun ins => folded f ins (valuesAfter f (code.take i) values) := by
  induction code with
  | nil => exact fun values i => rfl
  | cons ins code ih =>
    intro values i
    cases i with
    | zero => rfl
    | succ i => exact ih (learned f ins values) i

/-- What is known before a row. -/
def pointValues (f : MirFunction P) (b : BlockId) (i : Nat) : Values :=
  valuesAfter f (((f.rowsAt b).take i).map (·.instruction)) (fun _ => none)

theorem pointValues_succ {b : BlockId} {i : Nat} {row : Row P} (h : (f.rowsAt b)[i]? = some row) :
    pointValues f b (i + 1) = learned f row.instruction (pointValues f b i) := by
  unfold pointValues valuesAfter
  obtain ⟨hlt, rfl⟩ := List.getElem?_eq_some_iff.mp h
  rw [List.take_succ_eq_append_getElem hlt, List.map_append, List.foldl_append]
  rfl

theorem blocks_foldFunction :
    (foldFunction f).blocks[b]? = f.blocks[b]?.map (foldBlock f) :=
  getElem?_map

/-- A row of the folded function. -/
theorem rowsAt_foldFunction (halgn : f.Aligned) (b : BlockId) (i : Nat) :
    ((foldFunction f).rowsAt b)[i]? = (f.rowsAt b)[i]?.map fun row =>
      { row with instruction := folded f row.instruction (pointValues f b i) } := by
  unfold pointValues MirFunction.rowsAt
  rw [blocks_foldFunction]
  cases hb : f.blocks[b]? with
  | none => rfl
  | some block =>
    dsimp only [map_some, elim_some]
    have hinstrs := BasicBlock.instructions_eq (halgn block (mem_of_getElem? hb))
    rw [map_take, ← hinstrs]
    unfold BasicBlock.rows foldBlock
    dsimp only
    simp only [getElem?_map, zip_eq_zipWith, getElem?_zipWith, getElem?_foldCode]
    cases block.instructions[i]? with
    | none => rfl
    | some ins =>
      cases block.instructionSpans[i]? with
      | none => rfl
      | some span => cases block.instructionScopes[i]? <;> rfl

theorem length_rowsAt_foldFunction :
    ((foldFunction f).rowsAt b).length = (f.rowsAt b).length := by
  unfold MirFunction.rowsAt
  rw [blocks_foldFunction]
  cases f.blocks[b]? with
  | none => rfl
  | some block => simp [BasicBlock.rows, foldBlock, length_foldCode]

theorem terminatorAt_foldFunction (halgn : f.Aligned) {b : BlockId} {i : Nat}
    (hi : (f.rowsAt b).length ≤ i) :
    (foldFunction f).terminatorAt b = foldTerminator (f.terminatorAt b) (pointValues f b i) := by
  unfold pointValues
  rw [take_of_length_le hi]
  unfold MirFunction.terminatorAt MirFunction.rowsAt
  rw [blocks_foldFunction]
  cases hb : f.blocks[b]? with
  | none => rfl
  | some block =>
    have hinstrs := BasicBlock.instructions_eq (halgn block (mem_of_getElem? hb))
    dsimp only [map_some, elim_some, bind_some]
    rw [← hinstrs]
    rfl

theorem terminatorSpanAt_foldFunction :
    (foldFunction f).terminatorSpanAt b = f.terminatorSpanAt b := by
  unfold MirFunction.terminatorSpanAt
  rw [blocks_foldFunction]
  cases f.blocks[b]? <;> rfl

end Rows

section Simulation

variable {P H W : Type} {w : World P H W} {f : MirFunction P} {checks : Checks P} {context : Context}

/-! ## Known values are the values -/

/-- What is known holds of the temporaries. -/
def Holds (f : MirFunction P) (values : Values) (s : State (Value H) W) : Prop :=
  ∀ t c, values t = some c → f.temps[t]? = some ⟨c.ty⟩ ∧ s.env t = c.value

variable {s : State (Value H) W} {values : Values}

theorem Holds.ty (h : Holds f values s) {v : MirValue}
    {c : Scalar} (hv : Typed f v) (hc : values v.temp = some c) : v.ty = c.ty := by
  have hty := (h v.temp c hc).1
  rw [show f.temps[v.temp]? = some ⟨v.ty⟩ from hv] at hty
  exact congrArg MirTemp.ty (some.inj hty)

/-- Operands in the scalar bank, and the operation that they select. -/
theorem prepare_eq {i : Instruction P}
    (hopnds : ∀ v ∈ i.inputs ++ i.output.toList, (scalarType v.ty).isSome)
    (hselect : selectOperation i = some operation) : prepare i = some operation := by
  unfold prepare
  rw [if_pos (all_eq_true.mpr hopnds), hselect]

theorem unaryResult_ok {op : UnaryOp} {operand ty : ValueType} (h : unaryResult op operand = .ok ty) :
    ty = operand := by
  unfold unaryResult at h
  split at h <;> split at h
  · exact (Except.ok.inj h).symm
  · cases h
  · rename_i heq
    rw [heq]
    exact (Except.ok.inj h).symm
  · cases h

theorem numericContract_ok {operation : NumericOperation} {dst lhs : ValueType} {rhs : Option ValueType}
    (h : numericContract operation dst lhs rhs = .ok ()) :
    dst = builtinRepresentation operation.input := by
  unfold numericContract at h
  split at h
  · cases h
  · rename_i signature hctr
    obtain ⟨-, -, h⟩ := bind_ok.mp h
    obtain ⟨_, hdst, -⟩ := bind_ok.mp h
    rw [Scalar.expectType_ok hdst, (Scalar.contract_output hctr).2]
    rfl

variable {row : Row P} {events : List (Event P (Value H))}

/-- A row whose operation gives a scalar on the values it reads. -/
theorem interpretRow_scalar {r : Scalar}
    {inputs : List (Value H)} {selected : ScalarOperation}
    (hout : row.instruction.output = some dst) (hread : s.read row.instruction.inputs = inputs)
    (hinps : ∀ v ∈ row.instruction.inputs, ∃ c : Scalar, v.ty = c.ty) (hty : r.ty = dst.ty)
    (hsel : selectOperation row.instruction = some selected)
    (hrun : w.evaluate selected dst.ty inputs = some r.value) :
    interpretRow w row s = .next (s.assign dst r.value) [] := by
  refine interpretRow_prepared (prepare_eq (fun v hv => ?_) hsel) hout (by rw [hread, hrun])
  rcases mem_append.mp hv with hv | hv
  · obtain ⟨c, hc⟩ := hinps v hv
    rw [hc]
    exact c.scalarType_ty
  · rw [hout, toList_some, mem_singleton] at hv
    rw [hv, ← hty]
    exact r.scalarType_ty

/-- An instruction with known operands computes what the pass finds. -/
theorem evaluate_sound (hok : InstructionOk checks.scalar f row.instruction) (hs : Holds f values s) {c : Scalar}
    (h : evaluate row.instruction values = some c)
    (hout : row.instruction.output = some dst) :
    c.ty = dst.ty ∧ interpretRow w row s = .next (s.assign dst c.value) [] := by
  have hoper := hok.operation
  have hctr := hok.operation.scalar
  have hinps := hok.inputs
  cases hi : row.instruction with
  | loadConst dst' constant =>
    rw [hi] at h hout hoper
    obtain rfl := some.inj hout
    obtain ⟨rfl, hty⟩ := Scalar.fromConstant_some h
    refine ⟨(show dst'.ty = _ from hoper).symm ▸ hty.symm, ?_⟩
    rw [interpretRow_loadConst hi, Scalar.constant_value]
  | move dst' src =>
    rw [hi] at h hout hoper hinps
    obtain rfl := some.inj hout
    have hty : dst'.ty = src.ty := hoper
    refine ⟨?_, ?_⟩
    · rw [hty, hs.ty (hinps src (by simp [Instruction.inputs])) h]
    · rw [interpretRow_move hi, (hs src.temp c h).2]
  | unary dst' op operand =>
    rw [hi] at h hout hctr hinps
    obtain rfl := some.inj hout
    obtain ⟨a, ha, h⟩ := bind_eq_some_iff.mp h
    have hopnd := hs.ty (hinps operand (by simp [Instruction.inputs])) ha
    obtain ⟨ty, hres, hdst⟩ := bind_ok.mp hctr
    have hdst : dst'.ty = a.ty := by rw [Scalar.expectType_ok hdst, unaryResult_ok hres, hopnd]
    obtain ⟨hty, selected, hsel, hrun⟩ := Scalar.unary_sound w h dst' operand hopnd
    have hc : c.ty = dst'.ty := by rw [hty, hdst]
    refine ⟨hc, interpretRow_scalar (by rw [hi]; rfl) ?_ ?_ hc (by rw [hi]; exact hsel)
      (by rw [hdst]; exact hrun)⟩
    · rw [hi]
      exact congrArg (fun v => [v]) (hs operand.temp a ha).2
    · rw [hi]
      intro v hv
      obtain rfl := mem_singleton.mp hv
      exact ⟨a, hopnd⟩
  | binary dst' op lhs rhs =>
    rw [hi] at h hout hctr hinps
    obtain rfl := some.inj hout
    obtain ⟨a, ha, h⟩ := bind_eq_some_iff.mp h
    obtain ⟨b, hb, h⟩ := bind_eq_some_iff.mp h
    have hlhs := hs.ty (hinps lhs (by simp [Instruction.inputs])) ha
    have hrhs := hs.ty (hinps rhs (by simp [Instruction.inputs])) hb
    obtain ⟨ty, hres, hdst⟩ := bind_ok.mp hctr
    rw [← Scalar.expectType_ok hdst] at hres
    obtain ⟨hc, selected, hsel, hrun⟩ := Scalar.binary_sound w h dst' lhs rhs hlhs hres
    refine ⟨hc, interpretRow_scalar (by rw [hi]; rfl) ?_ ?_ hc (by rw [hi]; exact hsel) hrun⟩
    · rw [hi]
      exact congrArg₂ (fun v u => [v, u]) (hs lhs.temp a ha).2 (hs rhs.temp b hb).2
    · rw [hi]
      exact forall_mem_cons.mpr ⟨⟨a, hlhs⟩, forall_mem_singleton.mpr ⟨b, hrhs⟩⟩
  | numeric dst' operation lhs rhs =>
    rw [hi] at h hout hctr hinps
    obtain rfl := some.inj hout
    obtain ⟨a, ha, h⟩ := bind_eq_some_iff.mp h
    have hlhs := hs.ty (hinps lhs (by simp [Instruction.inputs])) ha
    have hdst := numericContract_ok hctr
    cases rhs with
    | none =>
      obtain ⟨selected, hsel, hty, hrun⟩ := Scalar.numeric_sound w h
      rw [← hdst] at hty hrun
      refine ⟨hty, interpretRow_scalar (by rw [hi]; rfl) ?_ ?_ hty (by rw [hi]; exact hsel) hrun⟩
      · rw [hi]
        exact congrArg (fun v => [v]) (hs lhs.temp a ha).2
      · rw [hi]
        exact forall_mem_singleton.mpr ⟨a, hlhs⟩
    | some rhs =>
      obtain ⟨b, hb, h⟩ := bind_eq_some_iff.mp h
      have hrhs := hs.ty (hinps rhs (by simp [Instruction.inputs])) hb
      obtain ⟨selected, hsel, hty, hrun⟩ := Scalar.numeric_sound w h
      rw [← hdst] at hty hrun
      refine ⟨hty, interpretRow_scalar (by rw [hi]; rfl) ?_ ?_ hty (by rw [hi]; exact hsel) hrun⟩
      · rw [hi]
        exact congrArg₂ (fun v u => [v, u]) (hs lhs.temp a ha).2 (hs rhs.temp b hb).2
      · rw [hi]
        exact forall_mem_cons.mpr ⟨⟨a, hlhs⟩, forall_mem_singleton.mpr ⟨b, hrhs⟩⟩
  | _ =>
    rw [hi] at h
    cases h

/-! ## One step -/

/-- A row and the one in its place do the same. -/
theorem interpretRow_folded (hok : InstructionOk checks.scalar f row.instruction) (hs : Holds f values s) :
    folded f row.instruction values = row.instruction ∨
    ∃ dst c, row.instruction.output = some dst ∧
      folded f row.instruction values = .loadConst dst c ∧ c.ty = dst.ty ∧
      interpretRow w row s = .next (s.assign dst (w.constant c)) [] := by
  unfold folded
  split
  · rename_i dst value hout hkn
    split
    · exact .inl rfl
    · unfold known at hkn
      rw [hout] at hkn
      obtain ⟨hval, -⟩ := filter_eq_some_iff.mp hkn
      obtain ⟨hty, hrun⟩ := evaluate_sound (w := w) hok hs hval hout
      refine .inr ⟨dst, value.constant, hout, rfl, ?_, ?_⟩
      · rw [value.constant_ty, hty]
      · rw [hrun, Scalar.constant_value]
  · exact .inl rfl

/-- What is known after a row holds there. -/
theorem holds_learned {s s' : State (Value H) W}
    (hok : InstructionOk checks.scalar f row.instruction)
    (hs : Holds f values s) (hstep : interpretRow w row s = .next s' events) :
    Holds f (learned f row.instruction values) s' := by
  have hfr := interpretRow_framed hstep
  unfold learned
  split
  · intro t c h
    cases h
  cases hout : row.instruction.output with
  | none =>
    intro t c h
    rw [hfr.env t (by simp [hout])]
    exact hs t c h
  | some dst =>
    intro t c h
    by_cases ht : t = dst.temp
    · subst ht
      rw [elim_some, Function.update_self] at h
      unfold known at h
      rw [hout] at h
      obtain ⟨hval, -⟩ := filter_eq_some_iff.mp h
      obtain ⟨hty, hrun⟩ := evaluate_sound (w := w) hok hs hval hout
      rw [hrun] at hstep
      cases hstep
      have htemp : f.temps[dst.temp]? = some ⟨dst.ty⟩ := hok.output dst hout
      refine ⟨by rw [htemp, hty], ?_⟩
      exact Function.update_self _ _ _
    · rw [elim_some, Function.update_of_ne ht] at h
      have hne : ∀ v ∈ row.instruction.output, v.temp ≠ t := by
        intro v hv
        obtain rfl : dst = v := some.inj (hout.symm.trans hv)
        exact Ne.symm ht
      rw [hfr.env t hne]
      exact hs t c h

/-- The table holds where the interpreter is. -/
def KnownAt (f : MirFunction P) (s : State (Value H) W) : Prop :=
  Holds f (pointValues f s.block s.index) s

theorem knownAt_zero (h : s.index = 0) : KnownAt f s := by
  unfold KnownAt
  rw [h]
  intro t c hc
  cases hc

/-- A step keeps the table true. -/
theorem knownAt_step (hwell : WellFormed checks.scalar f context)
    {s s' : State (Value H) W} (hs : KnownAt f s)
    (hstep : interpret w f s = .next s' events) : KnownAt f s' := by
  unfold interpret at hstep
  split at hstep
  · rename_i row hrow
    have hfr := interpretRow_framed hstep
    have haft := holds_learned (hwell.row_ok hrow) hs hstep
    unfold KnownAt
    rw [hfr.block, hfr.index, pointValues_succ hrow]
    exact haft
  · unfold stepTerminator at hstep
    split at hstep
    · cases hstep
    · cases hstep
      exact knownAt_zero rfl
    · cases hstep
      exact knownAt_zero rfl
    · cases hstep
    · cases hstep

/-- A branch on a known condition goes to the target of the jump in its place. -/
theorem stepTerminator_folded {terminator : Option Terminator}
    (hs : Holds f values s) (span : Option Span) :
    foldTerminator terminator values = terminator ∨
    ∃ cond thenBlock elseBlock target,
      terminator = some (.branch cond thenBlock elseBlock) ∧
      foldTerminator terminator values = some (.jump target) ∧
      stepTerminator w.external terminator span s = .next (s.goto target) [] := by
  unfold foldTerminator
  split
  · rename_i cond thenBlock elseBlock
    split
    · rename_i condition hcond
      refine .inr ⟨cond, thenBlock, elseBlock, _, rfl, rfl, ?_⟩
      have hval : s.env cond.temp = .bool condition := (hs cond.temp _ hcond).2
      unfold stepTerminator
      dsimp only
      rw [hval]
      rfl
    · exact .inl rfl
  · exact .inl rfl

/-- What the pass has done where the interpreter is: the row is kept, with its span and scope, or
computes exactly the constant in its place; the terminator is kept, or goes where the jump in its
place goes. -/
structure FoldedAt (w : World P H W) (f f' : MirFunction P) (s : State (Value H) W) : Prop where
  length : (f'.rowsAt s.block).length = (f.rowsAt s.block).length
  row : ∀ row, (f.rowsAt s.block)[s.index]? = some row →
    ∃ row', (f'.rowsAt s.block)[s.index]? = some row' ∧ row'.span = row.span ∧ row'.scope = row.scope ∧
      (row'.instruction = row.instruction ∨
        ∃ dst c, row.instruction.output = some dst ∧ row'.instruction = .loadConst dst c ∧
          c.ty = dst.ty ∧ interpretRow w row s = .next (s.assign dst (w.constant c)) [])
  terminator : (f.rowsAt s.block)[s.index]? = none →
    f'.terminatorAt s.block = f.terminatorAt s.block ∨
    ∃ cond thenBlock elseBlock target,
      f.terminatorAt s.block = some (.branch cond thenBlock elseBlock) ∧
      f'.terminatorAt s.block = some (.jump target) ∧
      interpret w f s = .next (s.goto target) []

theorem foldedAt_of_knownAt (hwell : WellFormed checks.scalar f context)
    (hs : KnownAt f s) : FoldedAt w f (foldFunction f) s := by
  have halgn := aligned_of_blockOk hwell.blocks
  refine ⟨length_rowsAt_foldFunction s.block, fun row hrow => ?_, fun hnone => ?_⟩
  · refine ⟨{ row with instruction := folded f row.instruction (pointValues f s.block s.index) }, ?_,
      rfl, rfl, interpretRow_folded (hwell.row_ok hrow) hs⟩
    rw [rowsAt_foldFunction halgn, hrow]
    rfl
  · rw [terminatorAt_foldFunction halgn (getElem?_eq_none_iff.mp hnone)]
    refine (stepTerminator_folded (w := w) hs (f.terminatorSpanAt s.block)).imp_right ?_
    rintro ⟨cond, thenBlock, elseBlock, target, hterm, hfold, hrun⟩
    refine ⟨cond, thenBlock, elseBlock, target, hterm, hfold, ?_⟩
    unfold interpret
    rw [hnone]
    exact hrun

/-! ## The simulation -/

/-- Both functions take the same step. -/
theorem interpret_eq {f' : MirFunction P} (h : FoldedAt w f f' s)
    (hspan : f'.terminatorSpanAt s.block = f.terminatorSpanAt s.block) :
    interpret w f' s = interpret w f s := by
  cases hrow : (f.rowsAt s.block)[s.index]? with
  | some row =>
    obtain ⟨row', hrow', hspan', -, hsame⟩ := h.row row hrow
    unfold interpret
    rw [hrow, hrow']
    dsimp only
    rcases hsame with hsame | ⟨dst, c, -, hload, -, hrun⟩
    · unfold interpretRow stepRow
      rw [hspan', hsame]
    · rw [hrun, interpretRow_loadConst hload]
  | none =>
    have hrow' : (f'.rowsAt s.block)[s.index]? = none := by
      rw [getElem?_eq_none_iff, h.length]
      exact getElem?_eq_none_iff.mp hrow
    rcases h.terminator hrow with hsame | ⟨cond, thenBlock, elseBlock, target, -, hjump, hrun⟩
    · unfold interpret
      rw [hrow, hrow', hsame, hspan]
    · rw [hrun]
      unfold interpret
      rw [hrow', hjump]
      rfl

theorem simulation (hwell : WellFormed checks.scalar f context) :
    Machine.Simulation (interpret w f) (interpret w (foldFunction f))
      (fun s t => s = t ∧ KnownAt f s) (fun _ => 0) := by
  constructor
  rintro s t ⟨rfl, hs⟩
  have heq := interpret_eq (foldedAt_of_knownAt (w := w) hwell hs) (terminatorSpanAt_foldFunction _)
  cases hstep : interpret w f s with
  | halt outcome => exact .inl ⟨outcome, rfl, heq.trans hstep⟩
  | next s' events =>
    refine .inr ⟨0, s', events, ?_, .inr ⟨s', heq.trans hstep, rfl, knownAt_step hwell hs hstep⟩⟩
    rw [Machine.run_next hstep, Machine.run]
    simp

end Simulation

end Constants

section Preserves

variable {P : Type}

/-- `constants::simplify` preserves execution. From the start of any block, with anything in the
temporaries, what is folded is what the interpreter computes and where it goes. -/
theorem constants_preserve_execution (checks : Checks P) (functions simplified : List (MirFunction P))
    (statistics statistics' : PassStatistics) (work work' : Work)
    (hrun : (Constants.simplify functions statistics).run work =
      .ok ((simplified, statistics'), work'))
    (k : Nat) (f : MirFunction P) (hk : functions[k]? = some f)
    (haccepted : ∃ context, Accepted checks.scalar f context) :
    ∃ f', simplified[k]? = some f' ∧ SameInterpretation f f' ∧
      ∀ (H W : Type) (w : World P H W) (n : Nat) (s s' : State (Value H) W)
        (events : List (Event P (Value H))), s.index = 0 →
        Machine.run (interpret w f) n s = (events, .inl s') → Constants.FoldedAt w f f' s' := by
  obtain ⟨context, haccepted⟩ := haccepted
  have hwell := haccepted.wellFormed
  have hout := Constants.simplify_spec functions statistics work _ work' hrun
  dsimp only at hout
  refine ⟨Constants.foldFunction f, ?_, fun H W w env locals world => ?_, ?_⟩
  · rw [hout, List.getElem?_map, hk]
    rfl
  · exact (Constants.simulation hwell).same ⟨rfl, Constants.knownAt_zero rfl⟩
  · intro H W w n s s' events hs hrun
    refine Constants.foldedAt_of_knownAt hwell ?_
    exact Machine.run_invariant (fun _ _ _ => Constants.knownAt_step hwell) n
      (Constants.knownAt_zero hs) hrun

end Preserves

/-! ## A folded branch -/

/-- `if 2 < 2 + 2 { 2 + 2 } else { 2 }`, before folding. -/
def knownBranch : MirFunction Unit where
  semantic := ⟨none, [], none, [], []⟩
  params := []
  returnType := .i32
  locals := []
  temps := [⟨.i32⟩, ⟨.i32⟩, ⟨.bool⟩]
  blocks := [{
    instructions := [.loadConst ⟨0, .i32⟩ (.i32 2), .binary ⟨1, .i32⟩ .add ⟨0, .i32⟩ ⟨0, .i32⟩,
      .binary ⟨2, .bool⟩ .lt ⟨0, .i32⟩ ⟨1, .i32⟩]
    instructionSpans := [⟨0, 1⟩, ⟨0, 3⟩, ⟨0, 5⟩]
    instructionScopes := [0, 0, 0]
    terminator := some (.branch ⟨2, .bool⟩ 1 2)
    terminatorSpan := some ⟨0, 5⟩
    terminatorScope := some 0 }, {
    instructions := []
    instructionSpans := []
    instructionScopes := []
    terminator := some (.ret (some ⟨1, .i32⟩))
    terminatorSpan := some ⟨5, 7⟩
    terminatorScope := some 0 }, {
    instructions := []
    instructionSpans := []
    instructionScopes := []
    terminator := some (.ret (some ⟨0, .i32⟩))
    terminatorSpan := some ⟨7, 9⟩
    terminatorScope := some 0 }]
  entry := 0
  effects := { mayTrap := true }
  debug := ⟨⟨0, 9⟩, [], [], [⟨none, none⟩]⟩

theorem knownBranch_accepted :
    Accepted openChecks.scalar knownBranch ⟨false, none, none, none⟩ := by
  have hok : ((verifyFunction openChecks.scalar knownBranch ⟨false, none, none, none⟩).run
      ⟨0, 0⟩).isOk = true := by
    decide +kernel
  cases hrun : (verifyFunction openChecks.scalar knownBranch ⟨false, none, none, none⟩).run ⟨0, 0⟩ with
  | error e =>
    rw [hrun] at hok
    cases hok
  | ok out => exact ⟨_, out, hrun⟩

theorem constants_preserve_execution_knownBranch :
    ∃ f', SameInterpretation knownBranch f' ∧ f'.terminatorAt 0 = some (.jump 1) := by
  have hterm : ((Constants.simplify [knownBranch] {}).run ⟨0, 100, false⟩).toOption.map
      (fun out => out.1.1.map fun f => f.terminatorAt 0) = some [some (.jump 1)] := by
    decide +kernel
  cases hrun : (Constants.simplify [knownBranch] {}).run ⟨0, 100, false⟩ with
  | error e =>
    rw [hrun] at hterm
    cases hterm
  | ok out =>
    obtain ⟨⟨simplified, statistics⟩, work⟩ := out
    obtain ⟨f', hf', hsame, -⟩ := constants_preserve_execution openChecks [knownBranch] simplified {}
      statistics _ work hrun 0 knownBranch rfl ⟨_, knownBranch_accepted⟩
    refine ⟨f', hsame, ?_⟩
    rw [hrun] at hterm
    have hjump := congrArg (·[0]?) (Option.some.inj hterm)
    simpa [hf'] using hjump

end Kagari.Mir
