import Kagari.Mir.Verify
import Kagari.Mir.Verify.FlowSound

/-!
# What the MIR verifier accepts

`WellFormed` is what an accepted function satisfies (`verifyFunction_spec`). It is also all that the
verifier asks for besides its resource limits, of a function that does not suspend
(`verifyFunction_fails`).
-/

namespace Kagari.Mir

open Lib Context List

section Verify

variable {P : Type} (checks : Checks P) (f : MirFunction P) (context : Context)

/-! ## Instructions -/

def OperationOk : Instruction P → Prop
  | .loadConst dst constant => dst.ty = constant.ty
  | .loadLocal dst l => f.locals[l]? = some ⟨dst.ty⟩
  | .storeLocal l src => f.locals[l]? = some ⟨src.ty⟩
  | .move dst src => dst.ty = src.ty
  | i => checks.contract i.shape (i.inputs.map fun v => f.registerType v.temp)
      (i.output.map fun v => f.registerType v.temp) = none

structure InstructionOk (i : Instruction P) : Prop where
  inputs : ∀ v ∈ i.inputs, Typed f v
  output : ∀ v ∈ i.output, Typed f v
  operation : OperationOk checks f i

theorem checkValues_spec (values : List MirValue) :
    Ensures (checkValues f context values) (fun _ => ∀ v ∈ values, Typed f v) := by
  induction values with
  | nil => exact .pure (by simp)
  | cons v values ih =>
    refine .bind (context.value_spec f v) (fun _ hv => ?_)
    exact ih.mono (fun _ h => forall_mem_cons.mpr ⟨hv, h⟩)

variable {E : MirVerificationError → Prop}

theorem checkValues_fails {values : List MirValue} (h : ∀ v ∈ values, Typed f v) :
    Fails (checkValues f context values) E := by
  induction values with
  | nil => exact .pure
  | cons v values ih =>
    obtain ⟨hv, hrest⟩ := forall_mem_cons.mp h
    exact .seq (context.value_fails f hv) (fun _ => ih hrest)

theorem verifyOperation_spec (i : Instruction P) :
    Ensures (verifyOperation checks f context i) (fun _ => OperationOk checks f i) := by
  unfold verifyOperation
  split
  · exact context.expect_spec _ _ _
  · rename_i dst l
    refine .bind (context.localType_spec f l) (fun ty hty => ?_)
    refine (context.expect_spec _ _ _).mono (fun _ h => ?_)
    show f.locals[l]? = some ⟨dst.ty⟩
    rw [hty, h]
  · rename_i l src
    refine .bind (context.localType_spec f l) (fun ty hty => ?_)
    refine (context.expect_spec _ _ _).mono (fun _ h => ?_)
    show f.locals[l]? = some ⟨src.ty⟩
    rw [hty, h]
  · exact context.expect_spec _ _ _
  · split
    · exact .throw
    · rename_i hnone
      refine .pure ?_
      unfold OperationOk
      split <;> simp_all

theorem localType_fails {l : LocalId} {ty : ValueType} (h : f.locals[l]? = some ⟨ty⟩) :
    Fails (context.localType f l : VerifyM ValueType) E := by
  unfold localType
  rw [h]
  exact .pure

theorem verifyOperation_fails {i : Instruction P} (h : OperationOk checks f i) :
    Fails (verifyOperation checks f context i) E := by
  unfold verifyOperation
  split
  · exact context.expect_fails h _
  · rename_i dst l
    refine .bind (localType_fails f context h) (context.localType_spec f l) (fun ty hty => ?_)
    refine context.expect_fails ?_ _
    have heq : some (MirLocal.mk dst.ty) = some ⟨ty⟩ := h.symm.trans hty
    simpa using heq
  · rename_i l src
    refine .bind (localType_fails f context h) (context.localType_spec f l) (fun ty hty => ?_)
    refine context.expect_fails ?_ _
    have heq : some (MirLocal.mk src.ty) = some ⟨ty⟩ := h.symm.trans hty
    simpa using heq
  · exact context.expect_fails h _
  · rename_i h1 h2 h3 h4
    have hnone : checks.contract i.shape (i.inputs.map fun v => f.registerType v.temp)
        (i.output.map fun v => f.registerType v.temp) = none := by
      unfold OperationOk at h
      split at h <;> simp_all
    rw [hnone]
    exact .pure

/-- The effects of some instructions, together with those before them. -/
def codeEffects (code : List (Instruction P)) (effects : EffectSet) : EffectSet :=
  code.foldl (fun effects i => effects.union i.effects) effects

theorem verifyInstructions_spec (block : BasicBlock P) (code : List (Instruction P)) :
    ∀ (index : Nat) (effects : EffectSet),
      Ensures (verifyInstructions checks f context block code index effects) (fun out =>
        out = codeEffects code effects ∧ ∀ i ∈ code, InstructionOk checks f i) := by
  induction code with
  | nil => exact fun index effects => .pure ⟨rfl, by simp⟩
  | cons i code ih =>
    intro index effects
    refine .seq ?_
    refine .bind (checkValues_spec f _ _) (fun _ hinps => ?_)
    refine .bind (checkValues_spec f _ _) (fun _ houtput => ?_)
    refine .bind (verifyOperation_spec checks f _ i) (fun _ hop => ?_)
    refine (ih _ _).mono ?_
    rintro out ⟨hout, hrest⟩
    refine ⟨hout, forall_mem_cons.mpr ⟨⟨hinps, fun v hv => houtput v ?_, hop⟩, hrest⟩⟩
    simpa using hv

theorem verifyInstructions_fails (block : BasicBlock P) {code : List (Instruction P)}
    (h : ∀ i ∈ code, InstructionOk checks f i) : ∀ (index : Nat) (effects : EffectSet),
    Fails (verifyInstructions checks f context block code index effects)
      MirVerificationError.Resource := by
  induction code with
  | nil => exact fun index effects => .pure
  | cons i code ih =>
    intro index effects
    obtain ⟨hi, hrest⟩ := forall_mem_cons.mp h
    refine Fails.seq (Context.checkCancel_fails _) (fun _ => ?_)
    refine .seq (checkValues_fails f _ hi.inputs) (fun _ => ?_)
    refine .seq (checkValues_fails f _ (fun v hv => hi.output v (by simpa using hv)))
      (fun _ => ?_)
    refine .seq (verifyOperation_fails checks f _ hi.operation) (fun _ => ?_)
    exact ih hrest _ _

/-! ## Terminators -/

structure TerminatorOk (t : Terminator) : Prop where
  targets : ∀ target ∈ t.successors, target < f.blocks.length
  input : ∀ v ∈ t.input, Typed f v
  returns : ∀ value, t = .ret value →
    f.returnType ≠ .never ∧ value.elim .unit (·.ty) = f.returnType
  branches : ∀ cond thenBlock elseBlock, t = .branch cond thenBlock elseBlock → cond.ty = .bool

theorem checkTargets_spec (targets : List BlockId) :
    Ensures (checkTargets f context targets) (fun _ => ∀ t ∈ targets, t < f.blocks.length) := by
  induction targets with
  | nil => exact .pure (by simp)
  | cons target targets ih =>
    refine .bind (context.ensure_spec _ _) (fun _ ht => ?_)
    exact ih.mono (fun _ h => forall_mem_cons.mpr ⟨of_decide_eq_true ht, h⟩)

theorem checkTargets_fails {targets : List BlockId} (h : ∀ t ∈ targets, t < f.blocks.length) :
    Fails (checkTargets f context targets) E := by
  induction targets with
  | nil => exact .pure
  | cons target targets ih =>
    obtain ⟨ht, hrest⟩ := forall_mem_cons.mp h
    exact .seq (context.ensure_fails (decide_eq_true ht) _) (fun _ => ih hrest)

theorem verifyTerminator_spec (t : Terminator) :
    Ensures (verifyTerminator f context t) (fun _ => TerminatorOk f t) := by
  refine .bind (checkTargets_spec f context _) (fun _ htgts => ?_)
  unfold verifyTerminatorInput
  split
  · rename_i value
    refine .bind (context.ensure_spec _ _) (fun _ hnever => ?_)
    refine .bind (checkValues_spec f context _) (fun _ hinp => ?_)
    refine (context.expect_spec _ _ _).mono (fun _ hty => ⟨htgts, ?_, ?_, ?_⟩)
    · intro v hv
      exact hinp v (Option.mem_toList.mpr hv)
    · intro value' heq
      obtain rfl := Terminator.ret.inj heq
      exact ⟨by simpa using hnever, hty⟩
    · intro cond thenBlock elseBlock heq
      cases heq
  · rename_i cond thenBlock elseBlock
    refine .bind (context.value_spec f cond) (fun _ hcond => ?_)
    refine (context.expect_spec _ _ _).mono (fun _ hty => ⟨htgts, ?_, ?_, ?_⟩)
    · intro v hv
      obtain rfl : cond = v := by simpa [Terminator.input] using hv
      exact hcond
    · intro value heq
      cases heq
    · intro cond' thenBlock' elseBlock' heq
      obtain ⟨rfl, -, -⟩ := Terminator.branch.inj heq
      exact hty
  · refine .pure ⟨htgts, by simp [Terminator.input], ?_, ?_⟩
    · intro value heq
      cases heq
    · intro cond thenBlock elseBlock heq
      cases heq
  · refine .pure ⟨htgts, by simp [Terminator.input], ?_, ?_⟩
    · intro value heq
      cases heq
    · intro cond thenBlock elseBlock heq
      cases heq

theorem verifyTerminator_fails {t : Terminator} (h : TerminatorOk f t) : Fails (verifyTerminator f context t) E := by
  refine .seq (checkTargets_fails f context h.targets) (fun _ => ?_)
  unfold verifyTerminatorInput
  split
  · rename_i value
    obtain ⟨hnever, hty⟩ := h.returns value rfl
    refine .seq (context.ensure_fails (by simpa using hnever) _) (fun _ => ?_)
    refine .seq (checkValues_fails f context (fun v hv => h.input v ?_)) (fun _ => ?_)
    · exact Option.mem_toList.mp hv
    · exact context.expect_fails hty _
  · rename_i cond thenBlock elseBlock
    refine .seq (context.value_fails f (h.input cond (by simp [Terminator.input])))
      (fun _ => ?_)
    exact context.expect_fails (h.branches cond _ _ rfl) _
  · exact .pure
  · exact .pure

/-! ## Blocks -/

structure BlockOk (block : BasicBlock P) : Prop where
  debug : block.debugValid f.debug.lexicalScopes.length = true
  code : ∀ i ∈ block.instructions, InstructionOk checks f i
  terminator : ∃ t, block.terminator = some t ∧ TerminatorOk f t

/-- The effects of some blocks, together with those before them. -/
def blocksEffects (blocks : List (BasicBlock P)) (effects : EffectSet) : EffectSet :=
  blocks.foldl (fun effects block => (codeEffects block.instructions effects).union
    (block.terminator.elim {} (·.effects))) effects

theorem verifyBlocks_spec (blocks : List (BasicBlock P)) :
    ∀ (index : BlockId) (count : Nat) (effects : EffectSet),
      Ensures (verifyBlocks checks f context blocks index count effects) (fun out =>
        out = blocksEffects blocks effects ∧ ∀ block ∈ blocks, BlockOk checks f block) := by
  induction blocks with
  | nil => exact fun index count effects => .pure ⟨rfl, by simp⟩
  | cons block blocks ih =>
    intro index count effects
    refine .seq (.seq ?_)
    refine Ensures.bind (Context.ensure_spec _ _ _) (fun _ hdbg => ?_)
    split
    · exact .throw
    · rename_i t ht
      refine .bind (verifyInstructions_spec checks f _ block _ 0 effects) ?_
      rintro out ⟨rfl, hcode⟩
      refine .bind (verifyTerminator_spec f _ t) (fun _ hterm => ?_)
      refine (ih _ _ _).mono ?_
      rintro all ⟨hall, hrest⟩
      refine ⟨?_, forall_mem_cons.mpr ⟨⟨hdbg, hcode, t, ht, hterm⟩, hrest⟩⟩
      rw [hall, blocksEffects, blocksEffects, foldl_cons, ht]
      rfl

theorem verifyBlocks_fails {blocks : List (BasicBlock P)}
    (h : ∀ block ∈ blocks, BlockOk checks f block) :
    ∀ (index : BlockId) (count : Nat) (effects : EffectSet),
      Fails (verifyBlocks checks f context blocks index count effects)
        MirVerificationError.Resource := by
  induction blocks with
  | nil => exact fun index count effects => .pure
  | cons block blocks ih =>
    intro index count effects
    obtain ⟨hblk, hrest⟩ := forall_mem_cons.mp h
    obtain ⟨t, ht, hterm⟩ := hblk.terminator
    refine Fails.seq (Context.checkCancel_fails _) (fun _ => ?_)
    refine Fails.seq (Context.limit_fails _ _ _ _) (fun _ => ?_)
    refine Fails.seq (Context.ensure_fails _ hblk.debug _) (fun _ => ?_)
    rw [ht]
    refine .seq (verifyInstructions_fails checks f _ block hblk.code 0 effects) (fun out => ?_)
    refine .seq (verifyTerminator_fails f _ hterm) (fun _ => ?_)
    exact ih hrest _ _ _

/-! ## Functions -/

/-- What the verifier asks for, besides its resource limits and the suspension check. -/
structure WellFormed : Prop where
  signature : checks.signature f.semantic.generic f.semantic.params f.semantic.result = true
  types : f.typesValid checks = true
  layout : f.genericLayoutValid = true
  entry : f.entry < f.blocks.length
  params : checkParams f context f.params 0 = .ok ()
  debug : checkDebug f context = .ok ()
  origin : checks.origin = true
  spans : ∀ span ∈ f.sourceSpans, span.start ≤ span.stop ∧ checks.position span = true
  blocks : ∀ block ∈ f.blocks, BlockOk checks f block
  effects : f.effects.union (blocksEffects f.blocks {}) = f.effects
  reads : PathReads f

variable {checks f context}

theorem BlockOk.aligned {block : BasicBlock P} (h : BlockOk checks f block) : block.Aligned := by
  have hdbg := h.debug
  unfold BasicBlock.debugValid at hdbg
  simp only [Bool.and_eq_true, beq_iff_eq] at hdbg
  exact ⟨hdbg.1.1.1, hdbg.1.1.2⟩

theorem aligned_of_blockOk (h : ∀ block ∈ f.blocks, BlockOk checks f block) : f.Aligned :=
  fun block hblk => (h block hblk).aligned

theorem inRange_of_blockOk (hent : f.entry < f.blocks.length)
    (h : ∀ block ∈ f.blocks, BlockOk checks f block) : f.InRange := by
  refine ⟨hent, fun b c hedge => ?_⟩
  unfold MirFunction.Edge MirFunction.successorsAt MirFunction.terminatorAt at hedge
  cases hb : f.blocks[b]? with
  | none => simp [hb] at hedge
  | some block =>
    obtain ⟨t, ht, hok⟩ := (h block (mem_of_getElem? hb)).terminator
    simp only [hb, Option.bind_some, ht, Option.elim_some] at hedge
    exact hok.targets c hedge

theorem typed_lt {v : MirValue} (h : Typed f v) : v.temp < f.temps.length :=
  (List.getElem?_eq_some_iff.mp h).1

theorem readsInRange_of_blockOk (h : ∀ block ∈ f.blocks, BlockOk checks f block) :
    ReadsInRange f := by
  refine ⟨fun block hb i hi v hv => ?_, fun block hb i hi dst l hl => ?_, fun block hb v hv => ?_⟩
  · exact typed_lt (((h block hb).code i hi).inputs v hv)
  · have hop := ((h block hb).code i hi).operation
    rw [hl] at hop
    exact (List.getElem?_eq_some_iff.mp hop).1
  · obtain ⟨t, ht, hok⟩ := (h block hb).terminator
    rw [ht, Option.bind_some] at hv
    exact typed_lt (hok.input v hv)

theorem checkEntry_ok (h : checkEntry f context = .ok ()) : f.entry < f.blocks.length := by
  by_contra hnot
  simp [checkEntry, Context.ensure, hnot, Context.error, throw, throwThe, MonadExceptOf.throw] at h

variable (checks f context)

theorem checkLimits_fails : Fails (checkLimits f context) MirVerificationError.Resource := by
  refine .seq (context.limit_fails _ _ _) (fun _ => ?_)
  refine .seq (context.limit_fails _ _ _) (fun _ => ?_)
  exact .seq (context.limit_fails _ _ _) (fun _ => context.limit_fails _ _ _)

/-- An accepted function is well formed. -/
theorem verifyFunction_spec :
    Ensures (verifyFunction checks f context) (fun _ => WellFormed checks f context) := by
  refine .bind (context.ensure_spec _ _) (fun _ hsig => ?_)
  refine .seq ?_
  refine .bind Ensures.lift (fun _ hent => ?_)
  refine .bind Ensures.lift (fun _ hprms => ?_)
  refine .bind Ensures.lift (fun _ hdbg => ?_)
  refine .bind (.bind (P := fun _ => checks.origin = true)
    (Q := fun _ => checks.origin = true ∧ f.sourceSpans.all (fun span =>
      decide (span.start ≤ span.stop) && checks.position span) = true)
    (context.ensure_spec _ _)
    (fun _ horig => (context.ensure_spec _ _).mono (fun _ h => ⟨horig, h⟩))) ?_
  rintro _ ⟨horig, hspn⟩
  refine .bind (verifyBlocks_spec checks f context _ _ _ _) ?_
  rintro effects ⟨rfl, hblks⟩
  refine .bind (context.ensure_spec _ _) (fun _ heffs => ?_)
  refine .seq (.seq ?_)
  have hin := checkEntry_ok hent
  refine .bind (verifyFlow_reads f context (aligned_of_blockOk hblks)
    (inRange_of_blockOk hin hblks)) (fun initialized hrd => ?_)
  refine .bind Ensures.any (fun analysis _ => .seq (.pure ?_))
  simp only [Bool.and_eq_true] at hsig
  refine ⟨hsig.1.1, hsig.1.2, hsig.2, hin, hprms, hdbg, horig, ?_, hblks,
    of_decide_eq_true heffs, hrd⟩
  intro span hspan
  have hall := all_eq_true.mp hspn span hspan
  simpa using hall

variable {checks f context} in
theorem Accepted.wellFormed (h : Accepted checks f context) : WellFormed checks f context := by
  obtain ⟨budget, ⟨analysis, budget'⟩, hrun⟩ := h
  exact verifyFunction_spec checks f context budget analysis budget' hrun

variable {checks f context} in
/-- Nothing but a resource limit or a cancellation stops the verification of a well-formed function
that does not suspend. -/
theorem verifyFunction_fails (h : WellFormed checks f context) (hsuspend : f.effects.maySuspend = false) :
    Fails (verifyFunction checks f context) MirVerificationError.Resource := by
  refine .seq (context.ensure_fails ?_ _) (fun _ => ?_)
  · rw [h.signature, h.types, h.layout]
    rfl
  refine .seq (checkLimits_fails f context) (fun _ => ?_)
  refine .seq (.lift (a := ()) ?_) (fun _ => ?_)
  · unfold checkEntry Context.ensure
    rw [if_pos (by simpa using h.entry)]
    rfl
  refine .seq (.lift h.params) (fun _ => ?_)
  refine .seq (.lift h.debug) (fun _ => ?_)
  refine .seq ?_ (fun _ => ?_)
  · refine .seq (context.ensure_fails h.origin _) (fun _ => context.ensure_fails ?_ _)
    rw [all_eq_true]
    intro span hspan
    simpa using h.spans span hspan
  refine .bind (verifyBlocks_fails checks f context h.blocks _ _ _)
    (verifyBlocks_spec checks f context f.blocks 0 0 {}) ?_
  rintro effects ⟨rfl, -⟩
  refine .seq (context.ensure_fails (by simpa using h.effects) _) (fun _ => ?_)
  refine .seq (context.limit_fails _ _ _) (fun _ => ?_)
  refine .seq (reserve_fails f context) (fun _ => ?_)
  refine .seq (verifyFlow_fails f context (aligned_of_blockOk h.blocks)
    (inRange_of_blockOk h.entry h.blocks) (readsInRange_of_blockOk h.blocks) h.reads) (fun _ => ?_)
  refine .seq (buildAnalysis_fails f context _) (fun _ => ?_)
  refine .seq ?_ (fun _ => .pure)
  unfold verifySuspension
  rw [hsuspend]
  exact .pure

end Verify

end Kagari.Mir
