import Kagari.Mir.Paths

/-!
# Initialization, in both directions

An accepted function writes what it reads, on every path (`ReadsWritten`). A function whose blocks
are well formed and that writes what it reads is not refused for initialization: the other checks
report other errors, and definite initialization is exact.
-/

namespace Kagari.Mir

open Lib Context

variable {kind : MirVerificationErrorKind} {w : Nat}

section Initialized

variable {P : Type}

/-- What a path reads, it has written before. -/
structure ReadsWritten (f : MirFunction P) : Prop where
  input : ∀ (b : BlockId) (i : Nat) (trace : List Point) (row : Row P), Path f b i trace →
    (f.rowsAt b)[i]? = some row → ∀ v ∈ row.instruction.inputs, WrittenIn f trace v.temp
  load : ∀ (b : BlockId) (i : Nat) (trace : List Point) (row : Row P), Path f b i trace →
    (f.rowsAt b)[i]? = some row → ∀ dst l, row.instruction = .loadLocal dst l →
      LocalWritten f trace l
  terminator : ∀ (b : BlockId) (trace : List Point) (t : Terminator),
    Path f b (f.rowsAt b).length trace → f.terminatorAt b = some t → ∀ v ∈ t.input,
      WrittenIn f trace v.temp

variable {checks : Checks P} {f : MirFunction P} {context : Context}

theorem WellFormed.readsWritten (h : WellFormed checks f context) : ReadsWritten f := by
  refine ⟨?_, ?_, ?_⟩
  · intro b i trace row hpath hrow v hv
    exact h.input_written hpath hrow hv
  · intro b i trace row hpath hrow dst l hload
    exact h.localWritten ((h.reads.row b i trace row hpath hrow).2 dst l hload)
  · intro b trace t hpath ht v hv
    exact h.terminator_written hpath ht hv

theorem ReadsWritten.pathReads (h : ReadsWritten f) : PathReads f := by
  refine ⟨?_, ?_⟩
  · intro b i trace row hpath hrow
    refine ⟨fun v hv => ?_, fun dst l hload => ?_⟩
    · exact slotWritten_of_writtenIn (h.input b i trace row hpath hrow v hv)
    · exact slotWritten_of_localWritten (h.load b i trace row hpath hrow dst l hload)
  · intro b trace v hpath hv
    obtain ⟨t, ht, hinp⟩ := Option.bind_eq_some_iff.mp hv
    exact slotWritten_of_writtenIn (h.terminator b trace t hpath ht v hinp)

/-! ## Errors of the other checks -/

/-- The error is about a temporary or a local that may be read before it is written. -/
def MirVerificationError.Uninitialized (e : MirVerificationError) : Prop :=
  match e.kind with
  | .uninitializedTemp _ => True
  | .uninitializedLocal _ => True
  | _ => False

theorem MirVerificationError.Resource.initialized {e : MirVerificationError} (h : e.Resource) :
    ¬ e.Uninitialized := by
  unfold Resource at h
  unfold Uninitialized
  split at h <;> simp_all

/-- The part does not refuse a function for initialization. -/
def Otherwise {α : Type} (m : Except MirVerificationError α) : Prop :=
  ∀ e, m = .error e → ¬ e.Uninitialized

namespace Otherwise

variable {α β : Type}

theorem pure {a : α} : Otherwise (Pure.pure a) := nofun

theorem bind {m : Except MirVerificationError α} {g : α → Except MirVerificationError β}
    (hm : Otherwise m) (hg : ∀ a, Otherwise (g a)) : Otherwise (m >>= g) := by
  intro e hrun
  cases m with
  | error first =>
    obtain rfl : first = e := Except.error.inj hrun
    exact hm first rfl
  | ok a => exact hg a e hrun

variable (context : Context)

theorem error
    (h : ¬ (MirVerificationError.mk context.block context.instruction context.span kind).Uninitialized) :
    Otherwise (context.error kind : Except MirVerificationError α) := by
  intro e hrun
  cases hrun
  exact h

theorem checkCancel : Otherwise (context.checkCancel : Except MirVerificationError Unit) := by
  unfold Context.checkCancel
  split
  · exact error context id
  · exact pure

theorem ensure (condition : Bool)
    (h : ¬ (MirVerificationError.mk context.block context.instruction context.span kind).Uninitialized) :
    Otherwise (context.ensure condition kind : Except MirVerificationError Unit) := by
  unfold Context.ensure
  split
  · exact pure
  · exact error context h

theorem expect (found expected : ValueType) (label : String) :
    Otherwise (context.expect found expected label : Except MirVerificationError Unit) := by
  unfold Context.expect
  split
  · exact pure
  · exact error context id

theorem localType (f : MirFunction P) (l : LocalId) :
    Otherwise (context.localType f l : Except MirVerificationError ValueType) := by
  unfold Context.localType
  split
  · exact error context id
  · exact pure

end Otherwise

variable (f context)

theorem checkParams_otherwise (params : List MirParameter) : ∀ index,
    Otherwise (checkParams f context params index) := by
  induction params with
  | nil => exact fun index => .pure
  | cons param params ih =>
    intro index
    refine .bind (.checkCancel context) (fun _ => ?_)
    refine .bind (.ensure context _ id) (fun _ => ?_)
    refine .bind (.localType context f _) (fun ty => ?_)
    exact .bind (.expect context _ _ _) (fun _ => ih _)

theorem checkDebugLocals_otherwise (infos : List MirLocalDebugInfo) : ∀ seen,
    Otherwise (checkDebugLocals f context infos seen) := by
  induction infos with
  | nil => exact fun seen => .pure
  | cons info infos ih =>
    intro seen
    refine .bind (.checkCancel context) (fun _ => ?_)
    refine .bind (.ensure context _ id) (fun _ => ?_)
    refine .bind (.localType context f _) (fun ty => ?_)
    refine .bind (.expect context _ _ _) (fun _ => ?_)
    exact .bind (.ensure context _ id) (fun _ => ih _)

theorem checkScopes_otherwise (debugLocals : List LocalId) (scopes : List MirLexicalScope) :
    ∀ index taken, Otherwise (checkScopes f context debugLocals scopes index taken) := by
  induction scopes with
  | nil => exact fun index taken => .pure
  | cons scope scopes ih =>
    intro index taken
    refine .bind (.checkCancel context) (fun _ => ?_)
    split
    · exact .error context id
    · exact .bind (.ensure context _ id) (fun _ => ih _ _)

theorem checkDebug_otherwise : Otherwise (checkDebug f context) := by
  refine .bind (checkDebugLocals_otherwise f context _ _) (fun debugLocals => ?_)
  refine .bind (.ensure context _ id) (fun _ => ?_)
  refine .bind (.ensure context _ id) (fun _ => ?_)
  exact checkScopes_otherwise f context _ _ _ _

theorem ensure_otherwise (condition : Bool)
    (h : ¬ (MirVerificationError.mk context.block context.instruction context.span kind).Uninitialized) :
    Fails (context.ensure condition kind : VerifyM Unit) (fun e => ¬ e.Uninitialized) := by
  unfold Context.ensure
  split
  · exact .pure
  · exact .throw h

/-! ## Suspension -/

theorem checkAwait_otherwise (live : BitVec w) (i : Instruction P) :
    Fails (checkAwait f context live i) (fun e => ¬ e.Uninitialized) := by
  unfold checkAwait
  split
  · refine .seq ((context.work_fails _).mono fun _ h => h.initialized) (fun _ => ?_)
    exact ensure_otherwise context _ id
  · exact .pure

theorem checkSuspension_otherwise (block : BasicBlock P) (points : List (PointAnalysis w))
    (code : List (Instruction P)) : ∀ index,
      Fails (checkSuspension f context block points code index) (fun e => ¬ e.Uninitialized) := by
  induction code with
  | nil => exact fun index => .pure
  | cons i code ih =>
    intro index
    refine Fails.seq ((Context.work_fails _ _).mono fun _ h => h.initialized) (fun _ => ?_)
    exact .seq (checkAwait_otherwise f _ _ i) (fun _ => ih _)

theorem pushUnvisited_otherwise (targets : List BlockId) : ∀ pending visited,
    Fails (pushUnvisited context targets pending visited) (fun e => ¬ e.Uninitialized) := by
  induction targets with
  | nil => exact fun pending visited => .pure
  | cons target targets ih =>
    intro pending visited
    refine .seq ((context.work_fails _).mono fun _ h => h.initialized) (fun _ => ?_)
    split
    · exact ih _ _
    · exact ih _ _

theorem suspensionLoop_otherwise (analysis : FunctionAnalysis w) (fuel : Nat) :
    ∀ pending visited,
      Fails (suspensionLoop f context analysis fuel pending visited) (fun e => ¬ e.Uninitialized) := by
  induction fuel with
  | zero =>
    intro pending visited
    cases pending with
    | nil => exact .pure
    | cons id pending => exact .throw (fun h => h)
  | succ fuel ih =>
    intro pending visited
    cases pending with
    | nil => exact .pure
    | cons id pending =>
      refine .seq ?_ (fun _ => ?_)
      · cases f.blocks[id]? with
        | none => exact .pure
        | some block => exact checkSuspension_otherwise f _ block _ _ 0
      · exact .seq (pushUnvisited_otherwise context _ _ _) (fun _ => ih _ _)

theorem verifySuspension_otherwise (analysis : FunctionAnalysis w) :
    Fails (verifySuspension f context analysis) (fun e => ¬ e.Uninitialized) := by
  unfold verifySuspension
  split
  · exact suspensionLoop_otherwise f context analysis _ _ _
  · exact .pure

/-- Of a function with well-formed blocks that writes what it reads, no check reports initialization. -/
theorem verifyFunction_otherwise (checks : Checks P) (hblks : ∀ block ∈ f.blocks, BlockOk checks f block)
    (hrd : ReadsWritten f) :
    Fails (verifyFunction checks f context) (fun e => ¬ e.Uninitialized) := by
  refine .seq (ensure_otherwise context _ id) (fun _ => ?_)
  refine .seq ((checkLimits_fails f context).mono fun _ h => h.initialized) (fun _ => ?_)
  refine Fails.bind (Fails.lift_of (Otherwise.ensure context _ id)) Ensures.lift (fun _ hent => ?_)
  refine .seq (.lift_of (checkParams_otherwise f context _ _)) (fun _ => ?_)
  refine .seq (.lift_of (checkDebug_otherwise f context)) (fun _ => ?_)
  refine .seq ?_ (fun _ => ?_)
  · exact .seq (ensure_otherwise context _ id) (fun _ => ensure_otherwise context _ id)
  refine .seq ((verifyBlocks_fails checks f context hblks _ _ _).mono
    fun _ h => h.initialized) (fun effects => ?_)
  refine .seq (ensure_otherwise context _ id) (fun _ => ?_)
  refine .seq ((context.limit_fails _ _ _).mono fun _ h => h.initialized) (fun _ => ?_)
  refine .seq ((reserve_fails f context).mono fun _ h => h.initialized) (fun _ => ?_)
  have hflow := verifyFlow_fails f context (aligned_of_blockOk hblks)
    (inRange_of_blockOk (checkEntry_ok hent) hblks) (readsInRange_of_blockOk hblks)
    hrd.pathReads
  refine .seq (hflow.mono fun _ h => h.initialized) (fun initialized => ?_)
  refine .seq ((buildAnalysis_fails f context initialized).mono fun _ h => h.initialized)
    (fun analysis => ?_)
  exact .seq (verifySuspension_otherwise f context analysis) (fun _ => .pure)

/-- An accepted function has written, on every path, what it reads; and a function with well-formed
blocks that has is not refused for initialization, whatever else may stop the request. -/
theorem verifyFunction_initialization (checks : Checks P) (f : MirFunction P) (context : Context)
    (budget : Budget) :
    (((verifyFunction checks f context).run budget).isOk = true → ReadsWritten f) ∧
    ((∀ block ∈ f.blocks, BlockOk checks f block) → ReadsWritten f →
      ∀ e, (verifyFunction checks f context).run budget = .error e → ¬ e.Uninitialized) := by
  constructor
  · intro hok
    cases hrun : (verifyFunction checks f context).run budget with
    | error e =>
      rw [hrun] at hok
      cases hok
    | ok out => exact (Accepted.wellFormed ⟨budget, out, hrun⟩).readsWritten
  · intro hblks hrd e hrun
    exact verifyFunction_otherwise f context checks hblks hrd budget e hrun

end Initialized

/-- `let l = true; while l {}`, with a block that nothing jumps to and that reads a temporary nothing
writes. -/
def deadRead : MirFunction Unit where
  semantic := ⟨none, [], none, [], []⟩
  params := []
  returnType := .bool
  locals := [⟨.bool⟩]
  temps := [⟨.bool⟩, ⟨.bool⟩, ⟨.bool⟩]
  blocks := [
    { instructions := [.loadConst ⟨0, .bool⟩ (.bool true), .storeLocal 0 ⟨0, .bool⟩]
      instructionSpans := [⟨0, 1⟩, ⟨0, 1⟩]
      instructionScopes := [0, 0]
      terminator := some (.jump 1)
      terminatorSpan := some ⟨2, 3⟩
      terminatorScope := some 0 },
    { instructions := [.loadLocal ⟨1, .bool⟩ 0]
      instructionSpans := [⟨2, 3⟩]
      instructionScopes := [0]
      terminator := some (.branch ⟨1, .bool⟩ 1 2)
      terminatorSpan := some ⟨2, 3⟩
      terminatorScope := some 0 },
    { instructions := []
      instructionSpans := []
      instructionScopes := []
      terminator := some (.ret (some ⟨1, .bool⟩))
      terminatorSpan := some ⟨4, 5⟩
      terminatorScope := some 0 },
    { instructions := []
      instructionSpans := []
      instructionScopes := []
      terminator := some (.ret (some ⟨2, .bool⟩))
      terminatorSpan := some ⟨4, 5⟩
      terminatorScope := some 0 }]
  entry := 0
  effects := { readsLocal := true, writesLocal := true }
  debug := ⟨⟨0, 5⟩, [], [], [⟨none, none⟩]⟩

theorem verifyFunction_initialization_deadRead :
    ReadsWritten deadRead ∧
      ∀ e, (verifyFunction openChecks deadRead ⟨false, none, none, none⟩).run ⟨0, 100000000⟩ =
        .error e → ¬ e.Uninitialized := by
  have hok : ((verifyFunction openChecks deadRead ⟨false, none, none, none⟩).run
      ⟨0, 0⟩).isOk = true := by
    decide +kernel
  have hrd := (verifyFunction_initialization openChecks deadRead _ _).1 hok
  refine ⟨hrd, (verifyFunction_initialization openChecks deadRead _ _).2 ?_ hrd⟩
  cases hrun : (verifyFunction openChecks deadRead ⟨false, none, none, none⟩).run ⟨0, 0⟩ with
  | error e =>
    rw [hrun] at hok
    cases hok
  | ok out => exact (Accepted.wellFormed ⟨_, out, hrun⟩).blocks

end Kagari.Mir
