import Kagari.Mir.Copies.Sound
import Kagari.Mir.Rotation.Accepted

/-!
# The rotation pass

Every run of `rotate` is a sequence of extensions (`Rotating`): the headers that are still to come
stay closed, and their latches keep their jumps, because a block changes only once and a header
never does.
-/

namespace Kagari.Mir

open Lib Context List

variable {header : BlockId} (index : BlockId) (usage : Usage)

section Run

variable {P : Type}

/-! ## What the pass looks up -/

theorem pushJump_apply (terminator : Option Terminator)
    (predecessors : BlockId → List BlockId) (b : BlockId) :
    pushJump index terminator predecessors b =
      if terminator = some (.jump b) then predecessors b ++ [index] else predecessors b := by
  unfold pushJump
  split
  · rename_i target
    by_cases hb : b = target
    · subst hb
      simp
    · rw [Function.update_of_ne hb, if_neg]
      simpa using Ne.symm hb
  · rename_i hne
    rw [if_neg (hne b)]

variable (blocks : List (BasicBlock P)) (f : MirFunction P) {block : BasicBlock P}

/-- Jumps only, each once. -/
theorem jumpPredecessors_spec : ∀ index predecessors,
    Ensures (jumpPredecessors blocks index predecessors) (fun out =>
      (∀ b, ∀ p ∈ out b, p ∈ predecessors b ∨ ∃ k block, blocks[k]? = some block ∧ p = index + k ∧
        block.terminator = some (.jump b)) ∧
      ((∀ b, (predecessors b).Nodup ∧ ∀ p ∈ predecessors b, p < index) →
        ∀ b, (out b).Nodup)) := by
  induction blocks with
  | nil => exact fun index predecessors => .pure ⟨fun b p hp => .inl hp, fun h b => (h b).1⟩
  | cons block blocks ih =>
    intro index predecessors
    refine .seq ((ih _ _).mono ?_)
    rintro out ⟨hout, hnd⟩
    refine ⟨fun b p hp => ?_, fun h => hnd (fun b => ?_)⟩
    · rcases hout b p hp with hp | ⟨k, block', hk, rfl, hjump⟩
      · rw [pushJump_apply] at hp
        split at hp
        · rename_i hjump
          rcases mem_append.mp hp with hp | hp
          · exact .inl hp
          · exact .inr ⟨0, block, rfl, by simpa using hp, hjump⟩
        · exact .inl hp
      · exact .inr ⟨k + 1, block', by simpa using hk, Nat.add_right_comm index 1 k, hjump⟩
    · obtain ⟨hone, hlt⟩ := h b
      rw [pushJump_apply]
      split
      · refine ⟨nodup_append.mpr ⟨hone, by simp, fun p hp q hq => ?_⟩, fun p hp => ?_⟩
        · rw [mem_singleton.mp hq]
          exact Nat.ne_of_lt (hlt p hp)
        · rcases mem_append.mp hp with hp | hp
          · exact Nat.lt_succ_of_lt (hlt p hp)
          · rw [mem_singleton.mp hp]
            exact Nat.lt_succ_self _
      · exact ⟨hone, fun p hp => Nat.lt_succ_of_lt (hlt p hp)⟩

/-- Each reader of a temporary is recorded, and each definition counted. -/
structure Recorded (usage out : Usage) (index : BlockId) (code : List (Instruction P)) : Prop where
  definitions : ∀ t, out.definitions t = usage.definitions t + code.countP (·.defines t)
  old : ∀ t, ∀ b ∈ usage.users t, b ∈ out.users t
  users : ∀ i ∈ code, ∀ v ∈ i.inputs, index ∈ out.users v.temp

theorem use_old (index : BlockId) (v : MirValue) (t : TempId) :
    ∀ b ∈ usage.users t, b ∈ (usage.use index v).users t := by
  intro b hb
  unfold Usage.use
  by_cases ht : t = v.temp
  · subst ht
    simp [hb]
  · show b ∈ Function.update usage.users v.temp (usage.users v.temp ++ [index]) t
    rw [Function.update_of_ne ht]
    exact hb

theorem use_self (index : BlockId) (v : MirValue) :
    index ∈ (usage.use index v).users v.temp := by
  simp [Usage.use]

theorem useAll_spec (inputs : List MirValue) : ∀ usage : Usage,
    (inputs.foldl (·.use index) usage).definitions = usage.definitions ∧
      (∀ t, ∀ b ∈ usage.users t, b ∈ (inputs.foldl (·.use index) usage).users t) ∧
      ∀ v ∈ inputs, index ∈ (inputs.foldl (·.use index) usage).users v.temp := by
  induction inputs with
  | nil => exact fun usage => ⟨rfl, fun _ _ h => h, by simp⟩
  | cons v inputs ih =>
    intro usage
    obtain ⟨hdefs, hold, hnew⟩ := ih (usage.use index v)
    refine ⟨hdefs, fun t b hb => hold t b (use_old usage index v t b hb), ?_⟩
    exact forall_mem_cons.mpr ⟨hold _ _ (use_self usage index v), hnew⟩

theorem countUses_spec (code : List (Instruction P)) : ∀ usage,
    Ensures (countUses index code usage) (fun out => Recorded usage out index code) := by
  induction code with
  | nil => exact fun usage => .pure ⟨by simp, fun _ _ h => h, by simp⟩
  | cons i code ih =>
    intro usage
    refine .seq ((ih _).mono (fun out hout => ?_))
    obtain ⟨hdefs, hold, hnew⟩ := useAll_spec index i.inputs
      { usage with
        definitions := i.output.elim usage.definitions fun dst =>
          Function.update usage.definitions dst.temp (usage.definitions dst.temp + 1) }
    refine ⟨fun t => ?_, fun t b hb => hout.old t b (hold t b hb), ?_⟩
    · rw [hout.definitions t, hdefs, countP_cons]
      cases hdst : i.output with
      | none => simp [Instruction.defines, hdst]
      | some dst =>
        by_cases ht : t = dst.temp
        · subst ht
          simp [Instruction.defines, hdst]
          omega
        · simp [Instruction.defines, hdst, Function.update_of_ne ht, Ne.symm ht]
    · exact forall_mem_cons.mpr ⟨fun v hv => hout.old _ _ (hnew v hv), hout.users⟩

theorem countAllUses_spec : ∀ index usage,
    Ensures (countAllUses blocks index usage) (fun out =>
      (∀ t, out.definitions t = usage.definitions t +
        (blocks.flatMap (·.instructions)).countP (·.defines t)) ∧
      (∀ t, ∀ b ∈ usage.users t, b ∈ out.users t) ∧
      ∀ k block, blocks[k]? = some block →
        (∀ i ∈ block.instructions, ∀ v ∈ i.inputs, index + k ∈ out.users v.temp) ∧
        ∀ v, block.terminator.bind (·.input) = some v → index + k ∈ out.users v.temp) := by
  induction blocks with
  | nil => exact fun index usage => .pure ⟨by simp, fun _ _ h => h, by simp⟩
  | cons block blocks ih =>
    intro index usage
    refine .bind (countUses_spec index _ _) (fun counted hcntd => ?_)
    refine (ih _ _).mono ?_
    rintro out ⟨hdefs, hold, husers⟩
    have hterm : ((block.terminator.bind (·.input)).elim counted
          (counted.use index)).definitions = counted.definitions ∧
        (∀ t, ∀ b ∈ counted.users t, b ∈ ((block.terminator.bind (·.input)).elim counted
          (counted.use index)).users t) ∧
        ∀ v, block.terminator.bind (·.input) = some v → index ∈
          ((block.terminator.bind (·.input)).elim counted (counted.use index)).users v.temp := by
      cases block.terminator.bind (·.input) with
      | none => exact ⟨rfl, fun _ _ h => h, by simp⟩
      | some v =>
        refine ⟨rfl, fun t => use_old counted index v t, fun w hw => ?_⟩
        cases hw
        exact use_self counted index v
    obtain ⟨hsame, hkeep, hinp⟩ := hterm
    refine ⟨fun t => ?_, fun t b hb => hold t b (hkeep t b (hcntd.old t b hb)), ?_⟩
    · rw [hdefs t, hsame, hcntd.definitions t, flatMap_cons, countP_append,
        Nat.add_assoc]
    · intro k block' hk
      rcases k with _ | k
      · obtain rfl : block = block' := by simpa using hk
        exact ⟨fun i hi v hv => hold _ _ (hkeep _ _ (hcntd.users i hi v hv)),
          fun v hv => hold _ _ (hinp v hv)⟩
      · have hrest := husers k block' (by simpa using hk)
        rw [Nat.add_right_comm index 1 k] at hrest
        exact hrest

/-! ## Closed conditions -/

/-- One instruction of a closed condition. -/
structure ClosedInstruction (header : BlockId) (usage : Usage) (before : TempId → Prop)
    (i : Instruction P) (dst : MirValue) : Prop where
  output : i.output = some dst
  inputs : ∀ v ∈ i.inputs, before v.temp
  single : usage.definitions dst.temp = 1
  users : ∀ b ∈ usage.users dst.temp, b = header

theorem computes_cons {i : Instruction P} {code : List (Instruction P)} {k : Nat} {t : TempId} :
    Computes (i :: code) (k + 1) t ↔ Computes code k t := by
  unfold Computes
  simp

theorem closedLoop_spec (header : BlockId) (usage : Usage) (code : List (Instruction P)) :
    ∀ outputs, Ensures (closedLoop header usage code outputs) (fun out => ∀ all, out = some all →
      (∀ j i, code[j]? = some i → ∃ dst, ClosedInstruction header usage
        (fun t => t ∈ outputs ∨ ∃ k < j, Computes code k t) i dst) ∧
      ∀ t ∈ all, t ∈ outputs ∨ ∃ k, Computes code k t) := by
  induction code with
  | nil =>
    intro outputs
    refine .pure (fun all hall => ⟨by simp, fun t ht => ?_⟩)
    cases hall
    exact .inl ht
  | cons i code ih =>
    intro outputs
    refine .seq ?_
    split
    · rename_i hshp
      simp only [Bool.and_eq_true, all_eq_true, contains_iff_mem] at hshp
      split
      · exact .pure (by simp)
      · rename_i dst hdst
        refine .seq ?_
        split
        · rename_i hown
          simp only [Bool.and_eq_true, beq_iff_eq, all_eq_true] at hown
          refine (ih _).mono (fun out hout all hall => ?_)
          obtain ⟨hrest, houts⟩ := hout all hall
          have hfst : Computes (i :: code) 0 dst.temp := ⟨i, dst, rfl, hdst, rfl⟩
          refine ⟨fun j i' hi' => ?_, fun t ht => ?_⟩
          · rcases j with _ | j
            · obtain rfl : i = i' := by simpa using hi'
              exact ⟨dst, hdst, fun v hv => .inl (hshp.2 v hv), hown.1.2, hown.2⟩
            · obtain ⟨dst', hclos⟩ := hrest j i' (by simpa using hi')
              refine ⟨dst', hclos.output, fun v hv => ?_, hclos.single, hclos.users⟩
              rcases hclos.inputs v hv with hmem | ⟨k, hk, hcomp⟩
              · rcases mem_cons.mp hmem with heq | hmem
                · exact .inr ⟨0, Nat.succ_pos j, heq ▸ hfst⟩
                · exact .inl hmem
              · exact .inr ⟨k + 1, Nat.succ_lt_succ hk, computes_cons.mpr hcomp⟩
          · rcases houts t ht with hmem | ⟨k, hcomp⟩
            · rcases mem_cons.mp hmem with heq | hmem
              · exact .inr ⟨0, heq ▸ hfst⟩
              · exact .inl hmem
            · exact .inr ⟨k + 1, computes_cons.mpr hcomp⟩
        · exact .pure (by simp)
    · exact .pure (by simp)

/-- The readers and definitions of a whole function. -/
structure UsageOf (f : MirFunction P) (usage : Usage) : Prop where
  single : SingleDefinitions f usage.definitions
  rows : ∀ b, ∀ row ∈ f.rowsAt b, ∀ v ∈ row.instruction.inputs, b ∈ usage.users v.temp
  terminators : ∀ b v, (f.terminatorAt b).bind (·.input) = some v → b ∈ usage.users v.temp

theorem usageOf_spec (h : f.Aligned) :
    Ensures (countAllUses f.blocks 0 ⟨fun _ => 0, fun _ => []⟩) (UsageOf f) := by
  refine (countAllUses_spec _ _ _).mono ?_
  rintro usage ⟨hdefs, -, husers⟩
  refine ⟨singleDefinitions_of_count h (fun t => by rw [hdefs t, Nat.zero_add]),
    fun b row hrow v hv => ?_, fun b v hv => ?_⟩
  · unfold MirFunction.rowsAt at hrow
    cases hb : f.blocks[b]? with
    | none => simp [hb] at hrow
    | some block =>
      simp only [hb, Option.elim_some] at hrow
      have hread := (husers b block hb).1 row.instruction
        (by rw [BasicBlock.instructions_eq (h block (mem_of_getElem? hb))]
            exact mem_map_of_mem hrow) v hv
      rw [Nat.zero_add] at hread
      exact hread
  · unfold MirFunction.terminatorAt at hv
    cases hb : f.blocks[b]? with
    | none => simp [hb] at hv
    | some block =>
      have hread := (husers b block hb).2 v (by simpa [hb] using hv)
      rw [Nat.zero_add] at hread
      exact hread

/-- A condition that the pass takes is closed. -/
theorem closedCondition_spec {f : MirFunction P} (h : Scoped f) {usage : Usage}
    (husage : UsageOf f usage)
    (hblk : f.blocks[header]? = some block) (hbranches : block.branches = true) :
    Ensures (closedCondition block header usage) (fun closed => closed = true → Closed f header) := by
  refine .bind (closedLoop_spec header usage block.instructions []) (fun out hout => ?_)
  refine .pure (fun hclos => ?_)
  obtain ⟨all, rfl, hcontains⟩ := (Option.any_eq_true _ _).mp hclos
  obtain ⟨cond, hcond, hmem⟩ := (Option.any_eq_true _ _).mp hcontains
  obtain ⟨hcode, houts⟩ := hout all rfl
  have hinstrs := header_instructions h hblk
  have hown : ∀ t j, Writes f t (header, j) →
      usage.definitions t = 1 ∧ ∀ b ∈ usage.users t, b = header := by
    rintro t j ⟨row, dst, hrow, hdst, rfl⟩
    obtain ⟨dst', hclos⟩ := hcode j row.instruction
      (by rw [← hinstrs, getElem?_map, hrow]; rfl)
    cases hdst.symm.trans hclos.output
    exact ⟨hclos.single, hclos.users⟩
  refine ⟨⟨fun i hi => ?_, fun j i hi v hv => ?_, fun j k t hj hk => ?_⟩, ?_, ?_, ?_⟩
  · rw [hinstrs] at hi
    obtain ⟨j, hj⟩ := mem_iff_getElem?.mp hi
    obtain ⟨dst, hclos⟩ := hcode j i hj
    exact ⟨dst, hclos.output⟩
  · rw [hinstrs] at hi ⊢
    obtain ⟨dst, hclos⟩ := hcode j i hi
    exact (hclos.inputs v hv).resolve_left (by simp)
  · rw [computes_iff_writes] at hj hk
    have heq := husage.single t (hown t j hj).1 _ _ hj hk
    exact (Prod.mk.inj heq).2
  · obtain ⟨j, hj⟩ := (houts cond.temp (contains_iff_mem.mp hmem)).resolve_left (by simp)
    rw [← hinstrs, computes_iff_writes] at hj
    unfold BasicBlock.branches at hbranches
    split at hbranches
    · rename_i cond' thenBlock elseBlock hterm
      rw [hterm] at hcond
      obtain rfl : cond' = cond := by simpa [Terminator.input] using hcond
      exact ⟨cond', thenBlock, elseBlock, j, by simp [MirFunction.terminatorAt, hblk, hterm],
        hj⟩
    · cases hbranches
  · rintro t j hw b hb row hrow v hv rfl
    exact hb ((hown _ j hw).2 b (husage.rows b row hrow v hv))
  · rintro t j hw b hb v hv rfl
    exact hb ((hown _ j hw).2 b (husage.terminators b v hv))

variable {predecessors : BlockId → List BlockId}

theorem branches_of_header {f : MirFunction P}
    (h : header ∈ headersOf f predecessors)
    (hblk : f.blocks[header]? = some block) : block.branches = true := by
  unfold headersOf at h
  have hhdr := (mem_filter.mp h).2
  rw [hblk, Option.any_some] at hhdr
  unfold isHeader at hhdr
  simp only [Bool.and_eq_true] at hhdr
  exact hhdr.1.1.2

theorem closedConditions_spec {f : MirFunction P} (h : Scoped f) {usage : Usage}
    (husage : UsageOf f usage) (headers : List BlockId)
    (hhdrs : ∀ header ∈ headers, ∀ block, f.blocks[header]? = some block →
      block.branches = true) :
    Ensures (closedConditions f usage headers) (fun out => (out.map Prod.fst).Sublist headers ∧
      ∀ c ∈ out, f.blocks[c.1]? = some c.2 ∧ Closed f c.1) := by
  induction headers with
  | nil => exact .pure ⟨.slnil, by simp⟩
  | cons header headers ih =>
    obtain ⟨hhdr, hrest⟩ := forall_mem_cons.mp hhdrs
    unfold closedConditions
    split
    · exact (ih hrest).mono (fun out hout => ⟨hout.1.cons _, hout.2⟩)
    · rename_i block hblk
      refine .bind (closedCondition_spec h husage hblk (hhdr block hblk)) ?_
      intro closed hclos
      refine .bind (ih hrest) ?_
      rintro out ⟨hsubl, hout⟩
      refine .pure ?_
      split
      · rename_i hyes
        refine ⟨hsubl.cons_cons _, forall_mem_cons.mpr ⟨⟨hblk, hclos hyes⟩, hout⟩⟩
      · exact ⟨hsubl.cons _, hout⟩

/-! ## One extension after another -/

/-- A header that waits for its latches. -/
structure Ready (f : MirFunction P) (header : BlockId) (condition : BasicBlock P)
    (latches : List BlockId) : Prop where
  block : f.blocks[header]? = some condition
  closed : Closed f header
  jumps : ∀ latch ∈ latches, f.terminatorAt latch = some (.jump header)

section Extend

variable {f : MirFunction P} {latch header : BlockId} {condition : BasicBlock P}
variable (h : Scoped f) (hhdr : f.blocks[header]? = some condition)
  (hclos : Closed f header) (hjump : f.terminatorAt latch = some (.jump header))
include h hhdr hclos hjump

/-- A header waits as before, when another latch is extended. -/
theorem Ready.extend {other : BlockId} {condition' : BasicBlock P} {latches : List BlockId}
    (hrdy : Ready f other condition' latches) (hlatch : latch ∉ latches) :
    Ready (f.extend latch condition (f.duplicate condition)) other condition' latches := by
  have he := extend_extension h hhdr hclos hjump
  have hne : other ≠ latch := by
    rintro rfl
    obtain ⟨cond, thenBlock, elseBlock, j, hbr, -⟩ := hrdy.closed.condition
    rw [hjump] at hbr
    cases hbr
  have hrows : (f.extend latch condition (f.duplicate condition)).rowsAt other = f.rowsAt other := by
    rw [he.rows, if_neg hne]
  have hwrs : ∀ t j, Writes (f.extend latch condition (f.duplicate condition)) t (other, j) →
      Writes f t (other, j) := by
    rintro t j ⟨row, dst, hrow, hrest⟩
    dsimp only at hrow
    rw [hrows] at hrow
    exact ⟨row, dst, hrow, hrest⟩
  -- a fresh temporary is not one of the other condition's
  have hfr : ∀ {t : TempId} {j k : Nat} {v : MirValue}, Writes f t (other, j) →
      Writes f v.temp (header, k) →
      (replaced (f.duplicate condition).replacements v).temp ≠ t := by
    rintro _ j k v ⟨row, dst, hrow, hdst, rfl⟩ hk heq
    have hlt := typed_lt ((h.row other j row hrow).2 dst hdst)
    rw [he.fresh v.temp k hk v rfl] at heq
    exact absurd (heq ▸ Nat.le_add_right _ _) (Nat.not_le_of_lt hlt)
  refine ⟨?_, ⟨?_, ?_, fun t j hw b hb row hrow v hv => ?_, fun t j hw b hb v hv => ?_⟩,
    fun latch' hmem => ?_⟩
  · show (f.blocks.modify latch _)[other]? = _
    rw [getElem?_modify, hrdy.block]
    simp [Ne.symm hne]
  · rw [hrows]
    exact hrdy.closed.code
  · obtain ⟨cond, thenBlock, elseBlock, j, hbr, row, dst, hrow, hrest⟩ := hrdy.closed.condition
    refine ⟨cond, thenBlock, elseBlock, j, ?_, row, dst, ?_, hrest⟩
    · rw [he.terminator, if_neg hne]
      exact hbr
    · rw [hrows]
      exact hrow
  · have hw' := hwrs t j hw
    rw [he.rows] at hrow
    split at hrow
    · rcases mem_append.mp hrow with hrow | hrow
      · exact hrdy.closed.rows t j hw' b hb row hrow v hv
      · obtain ⟨original, horig, rfl⟩ := mem_map.mp hrow
        rw [Row.rename, Instruction.inputs_rewrite] at hv
        obtain ⟨w, hwmem, rfl⟩ := mem_map.mp hv
        obtain ⟨k, hk⟩ := mem_iff_getElem?.mp horig
        obtain ⟨k', -, hk'⟩ := hclos.input_writes hk hwmem
        exact hfr hw' hk'
    · exact hrdy.closed.rows t j hw' b hb row hrow v hv
  · have hw' := hwrs t j hw
    rw [he.terminator] at hv
    split at hv
    · obtain ⟨cond, thenBlock, elseBlock, k, hbr, hk⟩ := hclos.condition
      rw [hbr] at hv
      obtain rfl : replaced (f.duplicate condition).replacements cond = v := by
        simpa [Terminator.rewriteInput, Terminator.input] using hv
      exact hfr hw' hk
    · exact hrdy.closed.terminators t j hw' b hb v hv
  · rw [he.terminator, if_neg (ne_of_mem_of_not_mem hmem hlatch)]
    exact hrdy.jumps latch' hmem

end Extend

/-- What holds of the function between two extensions. -/
structure Rotating (original f : MirFunction P) (predecessors : BlockId → List BlockId)
    (conditions : List (BlockId × BasicBlock P)) : Prop where
  operands : Scoped f
  same : SameExecution original f
  effects : f.effects = original.effects
  wellFormed : ∀ checks context, WellFormed checks original context → original.RegistersInRange →
    WellFormed checks f context ∧ f.RegistersInRange
  distinct : (conditions.map Prod.fst).Nodup
  ready : ∀ c ∈ conditions, Ready f c.1 c.2 (predecessors c.1)

variable {original : MirFunction P}

/-- All latches of one header. -/
theorem appendConditions_spec
    {conditions : List (BlockId × BasicBlock P)} {condition : BasicBlock P}
    (hhdr : header ∉ conditions.map Prod.fst) (latches : List BlockId) : ∀ f : MirFunction P,
      latches.Nodup → Rotating original f predecessors conditions →
      Ready f header condition latches →
      Ensures (appendConditions condition latches f)
        (fun out => Rotating original out predecessors conditions) := by
  induction latches with
  | nil => exact fun f _ h _ => .pure h
  | cons latch latches ih =>
    intro f hnd h hrdy
    obtain ⟨hnew, hnd⟩ := nodup_cons.mp hnd
    have hjump := hrdy.jumps latch (by simp)
    have hrest : Ready f header condition latches :=
      ⟨hrdy.block, hrdy.closed, fun l hl => hrdy.jumps l (mem_cons_of_mem _ hl)⟩
    refine .bind (.bind (duplicateCode_spec condition.instructions _) ?_)
      (fun extended hext => ?_) (P := fun extended =>
        extended = f.extend latch condition (f.duplicate condition))
    · rintro copy rfl
      exact .pure rfl
    · subst hext
      refine ih _ hnd ⟨scoped_extend h.operands hrdy.block hrdy.closed hjump, ?_, h.effects, ?_,
        h.distinct, fun c hc => ?_⟩ (hrest.extend h.operands hrdy.block hrdy.closed hjump hnew)
      · intro V W x env locals world
        exact (h.same V W x env locals world).trans (extension_same h.operands
          (extend_extension h.operands hrdy.block hrdy.closed hjump) V W x env locals world)
      · intro checks context hwell hrng
        obtain ⟨hwell', hrng'⟩ := h.wellFormed checks context hwell hrng
        exact wellFormed_extend hwell' hrdy.block hrdy.closed hrng' hjump
      · refine (h.ready c hc).extend h.operands hrdy.block hrdy.closed hjump (fun hmem => ?_)
        have hne := (h.ready c hc).jumps latch hmem
        rw [hjump] at hne
        obtain rfl : header = c.1 := by simpa using hne
        exact hhdr (mem_map_of_mem hc)

theorem dominatedLatches_spec (initial bypass : BlockId → Bool) (indices : List BlockId) :
    Ensures (dominatedLatches initial bypass indices) (fun out => out.Sublist indices) := by
  induction indices with
  | nil => exact .pure .slnil
  | cons index indices ih =>
    refine .seq (.bind ih (fun out hout => .pure ?_))
    split
    · exact hout.cons_cons _
    · exact hout.cons _

/-- All headers. -/
theorem rotateConditions_spec
    (hpreds : ∀ b, (predecessors b).Nodup) (initial : BlockId → Bool)
    (conditions : List (BlockId × BasicBlock P)) : ∀ (duplicated : Nat) (f : MirFunction P),
      Rotating original f predecessors conditions →
      Ensures (rotateConditions initial predecessors conditions duplicated f)
        (fun out => Rotating original out predecessors []) := by
  induction conditions with
  | nil => exact fun duplicated f h => .pure h
  | cons c conditions ih =>
    intro duplicated f h
    obtain ⟨header, condition⟩ := c
    obtain ⟨hhdr, hdist⟩ := nodup_cons.mp h.distinct
    obtain ⟨hrdy, hrest⟩ := forall_mem_cons.mp h.ready
    have hoths : Rotating original f predecessors conditions :=
      ⟨h.operands, h.same, h.effects, h.wellFormed, hdist, hrest⟩
    refine .bind Ensures.any (fun bypass _ => ?_)
    refine .bind (dominatedLatches_spec _ _ _) (fun latches hlatches => ?_)
    dsimp only
    split
    · exact ih _ _ hoths
    · refine .bind (appendConditions_spec hhdr latches f
        (hlatches.nodup (hpreds header)) hoths ⟨hrdy.block, hrdy.closed,
          fun latch hlatch => hrdy.jumps latch (hlatches.subset hlatch)⟩) ?_
      exact fun g hg => ih _ _ hg

theorem SameExecution.refl : SameExecution f f :=
  fun _ _ _ _ _ _ => ⟨fun _ => Iff.rfl, fun _ _ => Iff.rfl⟩

/-- Every run of the pass is a sequence of extensions. -/
theorem rotate_spec (h : Scoped f) :
    Ensures (rotate f) (fun out => out = f ∨
      f.effects.maySuspend = false ∧ ∃ predecessors, Rotating f out predecessors []) := by
  unfold rotate
  split
  · exact .pure (.inl rfl)
  · rename_i hsuspend
    refine .seq (.bind (jumpPredecessors_spec f.blocks 0 (fun _ => [])) ?_)
    rintro predecessors ⟨hjumps, hnd⟩
    unfold rotateHeaders
    split
    · exact .pure (.inl rfl)
    · refine .bind Ensures.any (fun initial _ => ?_)
      refine .bind (usageOf_spec f h.aligned) (fun usage husage => ?_)
      refine .bind (closedConditions_spec h husage (headersOf f predecessors)
        (fun header hhdr block hblk => branches_of_header hhdr hblk)) ?_
      rintro conditions ⟨hsubl, hconds⟩
      refine (rotateConditions_spec (hnd (by simp)) _ conditions 0 f ⟨h, .refl f, rfl,
        fun _ _ hwell hrng => ⟨hwell, hrng⟩, ?_, fun c hc => ?_⟩).mono
          (fun out hout => .inr ⟨by simpa using hsuspend, predecessors, hout⟩)
      · exact hsubl.nodup (nodup_range.filter _)
      · obtain ⟨hblk, hclos⟩ := hconds c hc
        refine ⟨hblk, hclos, fun latch hlatch => ?_⟩
        rcases hjumps c.1 latch hlatch with hmem | ⟨k, block, hk, rfl, hjump⟩
        · cases hmem
        · rw [Nat.zero_add]
          simp [MirFunction.terminatorAt, hk, hjump]

/-- Rotation preserves the execution of every accepted function. If its register types are recorded
for its own temporaries only, the verifier accepts the rotated function again, unless the request
runs into a resource limit or is cancelled. -/
theorem rotate_preserves_execution (checks : Checks P) (context : Context) (f f' : MirFunction P)
    (budget : Budget) (hverified : ((verifyFunction checks f context).run budget).isOk = true)
    (work work' : Work) (hrun : (rotate f).run work = .ok (f', work')) :
    SameExecution f f' ∧ (f.RegistersInRange →
      ((verifyFunction checks f' context).run budget).isOk = true ∨
        ∃ error, (verifyFunction checks f' context).run budget = .error error ∧ error.Resource) := by
  have hwell : WellFormed checks f context := by
    cases hres : (verifyFunction checks f context).run budget with
    | error error =>
      rw [hres] at hverified
      cases hverified
    | ok out => exact Accepted.wellFormed ⟨budget, out, hres⟩
  rcases rotate_spec f hwell.operands work f' work' hrun with rfl | ⟨hsuspend, predecessors, h⟩
  · exact ⟨.refl f', fun _ => .inl hverified⟩
  · refine ⟨h.same, fun hrng => ?_⟩
    have hwell' := (h.wellFormed checks context hwell hrng).1
    cases hres : (verifyFunction checks f' context).run budget with
    | ok out => exact .inl rfl
    | error error =>
      refine .inr ⟨error, rfl, verifyFunction_fails hwell' ?_ budget error hres⟩
      rw [h.effects]
      exact hsuspend

end Run

/-! ## A loop -/

/-- `let l = true; while l {}`. -/
def spinLoop (registers : List (Nat × Ty)) : MirFunction Unit where
  semantic := ⟨none, [], none, [], registers⟩
  params := []
  returnType := .unit
  locals := [⟨.bool⟩]
  temps := [⟨.bool⟩, ⟨.bool⟩]
  blocks := [
    { instructions := [.loadConst ⟨0, .bool⟩ (.bool true), .storeLocal 0 ⟨0, .bool⟩]
      instructionSpans := [⟨0, 1⟩, ⟨0, 1⟩]
      instructionScopes := [0, 0]
      terminator := some (.jump 1)
      terminatorSpan := some ⟨2, 3⟩
      terminatorScope := some 0 },
    { instructions := [.loadLocal ⟨1, .bool⟩ 0]
      instructionSpans := [⟨2, 3⟩]
      instructionScopes := [0]
      terminator := some (.branch ⟨1, .bool⟩ 2 3)
      terminatorSpan := some ⟨2, 3⟩
      terminatorScope := some 0 },
    { instructions := []
      instructionSpans := []
      instructionScopes := []
      terminator := some (.jump 1)
      terminatorSpan := some ⟨3, 4⟩
      terminatorScope := some 0 },
    { instructions := []
      instructionSpans := []
      instructionScopes := []
      terminator := some (.ret none)
      terminatorSpan := some ⟨4, 5⟩
      terminatorScope := some 0 }]
  entry := 0
  effects := { readsLocal := true, writesLocal := true }
  debug := ⟨⟨0, 5⟩, [], [], [⟨none, none⟩]⟩

/-- Whether the verifier accepts a function, with a budget that is already used in part. -/
def acceptedFrom (f : MirFunction Unit) (budget : Budget) : Bool :=
  ((verifyFunction openChecks f ⟨false, none, none, none⟩).run budget).isOk

/-- The rotated function, when the pass returns. -/
def rotated (f : MirFunction Unit) : Option (MirFunction Unit) :=
  ((rotate f).run ⟨0, 1000, false⟩).toOption.map (·.1)

theorem rotate_preserves_execution_spinLoop :
    ∃ f', rotated (spinLoop []) = some f' ∧ SameExecution (spinLoop []) f' ∧
      acceptedFrom f' ⟨0, 0⟩ = true := by
  have hacc : ((verifyFunction openChecks (spinLoop []) ⟨false, none, none, none⟩).run
      ⟨0, 0⟩).isOk = true := by
    decide +kernel
  have hrotd : (rotated (spinLoop [])).map (acceptedFrom · ⟨0, 0⟩) = some true := by
    decide +kernel
  obtain ⟨f', hf', hagain⟩ := Option.map_eq_some_iff.mp hrotd
  have hres := hf'
  unfold rotated at hres
  cases hrun : (rotate (spinLoop [])).run ⟨0, 1000, false⟩ with
  | error e =>
    rw [hrun] at hres
    cases hres
  | ok out =>
    rw [hrun] at hres
    obtain ⟨g, work⟩ := out
    obtain rfl : g = f' := Option.some.inj hres
    obtain ⟨hsame, hver⟩ :=
      rotate_preserves_execution openChecks _ (spinLoop []) g _ hacc _ work hrun
    refine ⟨g, hf', hsame, ?_⟩
    rcases hver (by simp [MirFunction.RegistersInRange, spinLoop]) with hok | ⟨e, he, -⟩
    · exact hok
    · rw [acceptedFrom, he] at hagain
      cases hagain

/-- A request that has little work left stops at the rotated loop, and a type recorded for a
temporary that does not exist is given to a fresh one. -/
theorem rotate_not_accepted_again :
    (∃ f', rotated (spinLoop []) = some f' ∧ acceptedFrom (spinLoop []) ⟨0, 99999870⟩ = true ∧
      acceptedFrom f' ⟨0, 99999870⟩ = false) ∧
    ∃ f', rotated (spinLoop [(2, .parameter ⟨0, 0⟩ 0)]) = some f' ∧
      acceptedFrom (spinLoop [(2, .parameter ⟨0, 0⟩ 0)]) ⟨0, 0⟩ = true ∧
      acceptedFrom f' ⟨0, 0⟩ = false := by
  constructor
  · have hrotd : (rotated (spinLoop [])).map (acceptedFrom · ⟨0, 99999870⟩) = some false := by
      decide +kernel
    obtain ⟨f', hf', hagain⟩ := Option.map_eq_some_iff.mp hrotd
    exact ⟨f', hf', by decide +kernel, hagain⟩
  · have hrotd : (rotated (spinLoop [(2, .parameter ⟨0, 0⟩ 0)])).map (acceptedFrom · ⟨0, 0⟩) =
        some false := by
      decide +kernel
    obtain ⟨f', hf', hagain⟩ := Option.map_eq_some_iff.mp hrotd
    exact ⟨f', hf', by decide +kernel, hagain⟩

end Kagari.Mir
