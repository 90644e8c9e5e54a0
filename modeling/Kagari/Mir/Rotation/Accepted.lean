import Kagari.Mir.Rotation.Sound

/-!
# Rotation keeps functions well formed

The verifier's conditions, one after another, for a function with a duplicated condition. The
fresh temporaries get the semantic types of those they replace, as long as no register type is
recorded for them yet (`RegistersInRange`). For the reads, a path of the extended function is taken
back to a path of the function that goes through the header instead of the copy.
-/

namespace Kagari.Mir

open Lib Context List

variable {all : EffectSet} {b : BlockId} {i : Nat} {t : TempId} {trace' : List Point} {v : MirValue}
  (context : Context)

section Accepted

variable {P : Type}

/-- Register types are recorded for the function's own temporaries only. -/
def MirFunction.RegistersInRange (f : MirFunction P) : Prop :=
  ∀ entry ∈ f.semantic.registers, entry.1 < f.temps.length

/-! ## Semantic types -/

/-- The register types with those of some copied code. -/
structure Registers (temps : List MirTemp) (registers : List (Nat × Ty))
    (code : List (Instruction P)) (copy : Duplicate P) : Prop where
  length : copy.temps.length = temps.length + code.length
  inRange : ∀ entry ∈ copy.registers, entry.1 < copy.temps.length
  keep : ∀ t < temps.length, copy.registers.lookup t = registers.lookup t
  copied : ∀ (j : Nat) (i : Instruction P) (dst : MirValue), code[j]? = some i →
    i.output = some dst → copy.registers.lookup (temps.length + j) = registers.lookup dst.temp
  types : ∀ entry ∈ copy.registers, ∃ entry' ∈ registers, entry'.2 = entry.2

theorem lookup_of_lt {registers : List (Nat × Ty)} {n : Nat} (h : ∀ entry ∈ registers, entry.1 < n) :
    registers.lookup n = none := by
  rw [lookup_eq_none_iff]
  intro entry hent
  simpa using Nat.ne_of_gt (h entry hent)

theorem registers_of_code (temps : List MirTemp) (registers : List (Nat × Ty))
    (hrng : ∀ entry ∈ registers, entry.1 < temps.length) (code : List (Instruction P))
    (houtput : ∀ i ∈ code, ∃ dst, i.output = some dst ∧ dst.temp < temps.length) :
    Registers temps registers code (code.foldl Duplicate.push
      { temps, registers, replacements := fun _ => none, instructions := [] }) := by
  induction code using List.reverseRecOn with
  | nil => exact ⟨rfl, hrng, fun _ _ => rfl, by simp, fun entry h => ⟨entry, h, rfl⟩⟩
  | append_singleton code i ih =>
    have hcode := ih (fun i hi => houtput i (List.mem_append_left _ hi))
    rw [List.foldl_append, List.foldl_cons, List.foldl_nil]
    generalize code.foldl Duplicate.push
      { temps, registers, replacements := fun _ => none, instructions := [] } = copy at hcode
    obtain ⟨dst, hdst, hlt⟩ := houtput i (by simp)
    have hold : copy.registers.lookup dst.temp = registers.lookup dst.temp := hcode.keep _ hlt
    have hnew : copy.registers.lookup copy.temps.length = none := lookup_of_lt hcode.inRange
    -- the copied instructions, the new one last
    have hget : ∀ {j : Nat} {i' : Instruction P}, (code ++ [i])[j]? = some i' →
        (j < code.length ∧ code[j]? = some i') ∨ (j = code.length ∧ i' = i) := by
      intro j i' hi'
      rcases Nat.lt_or_ge j code.length with hj | hj
      · rw [List.getElem?_append_left hj] at hi'
        exact .inl ⟨hj, hi'⟩
      · rw [List.getElem?_append_right hj] at hi'
        have hone := (List.getElem?_eq_some_iff.mp hi').1
        rw [List.length_singleton] at hone
        have hj' : j = code.length := by omega
        refine .inr ⟨hj', ?_⟩
        simpa [hj', eq_comm] using hi'
    unfold Duplicate.push
    rw [hdst]
    dsimp only
    cases hty : copy.registers.lookup dst.temp with
    | none =>
      refine ⟨?_, fun entry h => ?_, hcode.keep, fun j i' dst' hi' hout => ?_, hcode.types⟩
      · simp [hcode.length, Nat.add_assoc]
      · rw [List.length_append]
        exact Nat.lt_add_right _ (hcode.inRange entry h)
      · rcases hget hi' with ⟨-, hi'⟩ | ⟨rfl, rfl⟩
        · exact hcode.copied j i' dst' hi' hout
        · cases hdst.symm.trans hout
          rw [← hold, hty, ← hcode.length]
          exact hnew
    | some ty =>
      have hins : SortedMap.insert copy.temps.length ty copy.registers =
          copy.registers ++ [(copy.temps.length, ty)] := SortedMap.insert_of_lt hcode.inRange
      have hlook : ∀ t ≠ copy.temps.length,
          (copy.registers ++ [(copy.temps.length, ty)]).lookup t = copy.registers.lookup t := by
        intro t ht
        have hne : (t == copy.temps.length) = false := by simpa using ht
        rw [List.lookup_append, List.lookup_cons, hne]
        simp
      rw [Option.elim_some, hins]
      refine ⟨?_, fun entry h => ?_, fun t ht => ?_, fun j i' dst' hi' hout => ?_, fun entry h => ?_⟩
      · simp [hcode.length, Nat.add_assoc]
      · rw [List.length_append, List.length_singleton]
        rcases List.mem_append.mp h with h | h
        · exact Nat.lt_succ_of_lt (hcode.inRange entry h)
        · obtain rfl := List.mem_singleton.mp h
          exact Nat.lt_succ_self _
      · rw [hlook t (by rw [hcode.length]; omega)]
        exact hcode.keep t ht
      · rcases hget hi' with ⟨hj, hi'⟩ | ⟨rfl, rfl⟩
        · rw [hlook _ (by rw [hcode.length]; omega)]
          exact hcode.copied j i' dst' hi' hout
        · cases hdst.symm.trans hout
          rw [← hold, hty, ← hcode.length, List.lookup_append, hnew]
          simp
      · rcases List.mem_append.mp h with h | h
        · exact hcode.types entry h
        · obtain rfl := List.mem_singleton.mp h
          rw [hold, List.lookup_eq_some_iff] at hty
          obtain ⟨before, after, heq, -⟩ := hty
          exact ⟨(dst.temp, ty), by rw [heq]; simp, rfl⟩

/-! ## Checks that do not see the change -/

theorem checkParams_congr {f f' : MirFunction P} (hlocs : f'.locals = f.locals)
    (params : List MirParameter) : ∀ index,
      checkParams f' context params index = checkParams f context params index := by
  induction params with
  | nil => exact fun index => rfl
  | cons param params ih =>
    intro index
    unfold checkParams localType
    rw [hlocs, ih]

theorem checkDebugLocals_congr {f f' : MirFunction P}
    (hlocs : f'.locals = f.locals) (hprms : f'.params = f.params)
    (infos : List MirLocalDebugInfo) : ∀ seen,
      checkDebugLocals f' context infos seen = checkDebugLocals f context infos seen := by
  induction infos with
  | nil => exact fun seen => rfl
  | cons info infos ih =>
    intro seen
    unfold checkDebugLocals localType
    rw [hlocs, hprms, ih]

theorem checkScopes_congr {f f' : MirFunction P} (hprms : f'.params = f.params)
    (debugLocals : List LocalId) (scopes : List MirLexicalScope) : ∀ index taken,
      checkScopes f' context debugLocals scopes index taken =
        checkScopes f context debugLocals scopes index taken := by
  induction scopes with
  | nil => exact fun index taken => rfl
  | cons scope scopes ih =>
    intro index taken
    unfold checkScopes
    simp only [hprms, ih]

theorem checkDebug_congr {f f' : MirFunction P} (hlocs : f'.locals = f.locals)
    (hprms : f'.params = f.params) (hdbg : f'.debug = f.debug) :
    checkDebug f' context = checkDebug f context := by
  unfold checkDebug expectedScopes
  simp only [hprms, hdbg, checkDebugLocals_congr context hlocs hprms,
    checkScopes_congr context hprms]

/-! ## Effects -/

theorem covers_codeEffects (code : List (Instruction P)) : ∀ effects,
    all.Covers (codeEffects code effects) ↔
      all.Covers effects ∧ ∀ i ∈ code, all.Covers i.effects := by
  induction code with
  | nil => simp [codeEffects]
  | cons i code ih =>
    intro effects
    have hcons : codeEffects (i :: code) effects = codeEffects code (effects.union i.effects) := rfl
    rw [hcons, ih, EffectSet.covers_union, forall_mem_cons, and_assoc]

theorem covers_blocksEffects (blocks : List (BasicBlock P)) : ∀ effects,
    all.Covers (blocksEffects blocks effects) ↔ all.Covers effects ∧ ∀ block ∈ blocks,
      (∀ i ∈ block.instructions, all.Covers i.effects) ∧
        all.Covers (block.terminator.elim {} (·.effects)) := by
  induction blocks with
  | nil => simp [blocksEffects]
  | cons block blocks ih =>
    intro effects
    have hcons : blocksEffects (block :: blocks) effects = blocksEffects blocks
        ((codeEffects block.instructions effects).union (block.terminator.elim {} (·.effects))) := rfl
    rw [hcons, ih, EffectSet.covers_union, covers_codeEffects, forall_mem_cons]
    tauto

/-! ## Paths -/

/-- The rows before a point of a block have been run. -/
theorem Path.mem_of_lt {f : MirFunction P} {trace : List Point}
    (h : Path f b i trace) {k : Nat} (hk : k < i) : (b, k) ∈ trace := by
  induction h with
  | entry => exact absurd hk (Nat.not_lt_zero k)
  | next _ _ ih =>
    rcases Nat.lt_succ_iff_lt_or_eq.mp hk with hk | rfl
    · exact mem_append_left _ (ih hk)
    · simp
  | jump _ _ _ => exact absurd hk (Nat.not_lt_zero k)

section Extended

variable {checks : Checks P} {f f' : MirFunction P} {context : Context} {latch header : BlockId}
variable {ρ : MirValue → MirValue}
variable (h : WellFormed checks f context) (he : Extension f latch header ρ f')

/-- The points of a path outside the header are on the other. -/
def Covered (header : BlockId) (trace trace' : List Point) : Prop :=
  ∀ p ∈ trace, p.1 = header ∨ p ∈ trace'

include he

/-- A path of the extension, taken back: to the same point, or to the header when it is in the
copy. -/
theorem Extension.path (hpath : Path f' b i trace') :
    ∃ trace, Covered header trace trace' ∧ ((i ≤ (f.rowsAt b).length ∧ Path f b i trace) ∨
      (b = latch ∧ ∃ j, i = (f.rowsAt latch).length + j ∧ Path f header j trace)) := by
  have hpos : 0 < (f.rowsAt header).length := by
    obtain ⟨-, -, -, j, -, row, -, hrow, -⟩ := he.closed.condition
    exact Nat.zero_lt_of_lt (List.getElem?_eq_some_iff.mp hrow).1
  have hedge : header ∈ f.successorsAt latch := by
    simp [MirFunction.successorsAt, he.jump, Terminator.successors]
  induction hpath with
  | entry =>
    refine ⟨[], by simp [Covered], .inl ⟨Nat.zero_le _, ?_⟩⟩
    rw [he.entry]
    exact .entry
  | @next b i trace' _ hi ih =>
    obtain ⟨trace, hcovd, hcase⟩ := ih
    have hcopy : ∀ {j : Nat}, b = latch → i = (f.rowsAt latch).length + j → Path f header j trace →
        ∃ trace, Covered header trace (trace' ++ [(b, i)]) ∧
          ((i + 1 ≤ (f.rowsAt b).length ∧ Path f b (i + 1) trace) ∨ (b = latch ∧
            ∃ j, i + 1 = (f.rowsAt latch).length + j ∧ Path f header j trace)) := by
      rintro j rfl rfl hsrc
      rw [he.rows, if_pos rfl, List.length_append, List.length_map] at hi
      refine ⟨trace ++ [(header, j)], fun p hp => ?_, .inr ⟨rfl, j + 1, by omega,
        hsrc.next (by omega)⟩⟩
      rcases List.mem_append.mp hp with hp | hp
      · exact (hcovd p hp).imp_right (List.mem_append_left _)
      · exact .inl (by rw [List.mem_singleton.mp hp])
    rcases hcase with ⟨hle, hsrc⟩ | ⟨rfl, j, hij, hsrc⟩
    · rcases Nat.lt_or_eq_of_le hle with hlt | heq
      · refine ⟨trace ++ [(b, i)], fun p hp => ?_, .inl ⟨hlt, hsrc.next hlt⟩⟩
        rcases List.mem_append.mp hp with hp | hp
        · exact (hcovd p hp).imp_right (List.mem_append_left _)
        · exact .inr (List.mem_append_right _ hp)
      · by_cases hb : b = latch
        · subst hb
          rw [heq] at hsrc
          exact hcopy rfl heq (hsrc.jump hedge)
        · rw [he.rows, if_neg hb] at hi
          exact absurd heq (Nat.ne_of_lt hi)
    · exact hcopy rfl hij hsrc
  | @jump b target trace' _ htgt ih =>
    obtain ⟨trace, hcovd, hcase⟩ := ih
    unfold MirFunction.successorsAt at htgt
    rw [he.terminator] at htgt
    rw [he.rows] at hcase
    refine ⟨trace, hcovd, .inl ⟨Nat.zero_le _, ?_⟩⟩
    by_cases hb : b = latch
    · subst hb
      rw [if_pos rfl, List.length_append, List.length_map] at hcase
      rw [if_pos rfl] at htgt
      rcases hcase with ⟨hle, -⟩ | ⟨-, j, hij, hsrc⟩
      · omega
      · rw [Nat.add_left_cancel hij.symm] at hsrc
        refine hsrc.jump ?_
        unfold MirFunction.successorsAt
        cases hterm : f.terminatorAt header with
        | none => simp [hterm] at htgt
        | some terminator => simpa [hterm] using htgt
    · rw [if_neg hb] at htgt hcase
      rcases hcase with ⟨-, hsrc⟩ | ⟨hlatch, -⟩
      · exact hsrc.jump htgt
      · exact absurd hlatch hb

/-- Rows of the function are rows of the extension. -/
theorem Extension.row_keep {row : Row P}
    (hrow : (f.rowsAt b)[i]? = some row) : (f'.rowsAt b)[i]? = some row := by
  rw [he.rows]
  split
  · rw [List.getElem?_append_left (List.getElem?_eq_some_iff.mp hrow).1]
    exact hrow
  · exact hrow

theorem Extension.writtenIn {trace trace' : List Point} (hcovd : Covered header trace trace')
    (hown : ∀ j, ¬ Writes f t (header, j)) (hw : WrittenIn f trace t) :
    WrittenIn f' trace' t := by
  obtain ⟨p, hp, row, v, hrow, hout, rfl⟩ := hw
  refine ⟨p, (hcovd p hp).resolve_left (fun hhdr => ?_), row, v, he.row_keep hrow, hout, rfl⟩
  rw [hhdr] at hrow
  exact hown p.2 ⟨row, v, hrow, hout, rfl⟩

theorem Extension.localWritten {trace trace' : List Point} (hprms : f'.params = f.params)
    (hcovd : Covered header trace trace') {l : LocalId} (hw : LocalWritten f trace l) :
    LocalWritten f' trace' l := by
  rcases hw with ⟨param, hparam, heq⟩ | ⟨p, hp, row, src, hrow, hsto⟩
  · exact .inl ⟨param, hprms ▸ hparam, heq⟩
  · refine .inr ⟨p, (hcovd p hp).resolve_left (fun hhdr => ?_), row, src, he.row_keep hrow,
      hsto⟩
    -- rows of the header have outputs
    rw [hhdr] at hrow
    obtain ⟨dst, hdst⟩ := he.closed.code.output row.instruction
      (mem_map_of_mem (mem_of_getElem? hrow))
    rw [hsto] at hdst
    cases hdst

/-- A temporary of the condition, once the copy of its row has been run. -/
theorem Extension.copy_written {i j k : Nat}
    (hpath : Path f' latch i trace') (hi : i = (f.rowsAt latch).length + j) (hk : k < j)
    (hw : Writes f v.temp (header, k)) : WrittenIn f' trace' (ρ v).temp := by
  have hfr := he.fresh v.temp k hw v rfl
  obtain ⟨row, dst, hrow, hdst, htemp⟩ := hw
  refine ⟨(latch, (f.rowsAt latch).length + k), hpath.mem_of_lt (by omega), row.rename ρ, ρ dst, ?_,
    ?_, ?_⟩
  · rw [he.rows, if_pos rfl, getElem?_append_right (Nat.le_add_right _ _),
      Nat.add_sub_cancel_left, getElem?_map, hrow]
    rfl
  · rw [Row.rename, Instruction.output_rewrite, hdst]
    rfl
  · rw [hfr, he.fresh dst.temp k ⟨row, dst, hrow, hdst, rfl⟩ dst rfl]

/-- A temporary of the condition, once its row in the header has been run. -/
theorem Extension.header_written {i k : Nat}
    (hpath : Path f' header i trace') (hk : k < i) (hw : Writes f t (header, k)) :
    WrittenIn f' trace' t := by
  obtain ⟨row, dst, hrow, hdst, rfl⟩ := hw
  exact ⟨(header, k), hpath.mem_of_lt hk, row, dst, he.row_keep hrow, hdst, rfl⟩

include h

/-- Every path of the extension has written what it reads. -/
theorem Extension.pathReads (hprms : f'.params = f.params) : PathReads f' := by
  refine ⟨fun b i trace' row' hpath hrow' => ?_, fun b trace' v hpath hv => ?_⟩
  · obtain ⟨trace, hcovd, hcase⟩ := he.path hpath
    -- a row of the copy
    have hcopy : ∀ {j : Nat}, b = latch → i = (f.rowsAt latch).length + j → Path f header j trace →
        (∀ v ∈ row'.instruction.inputs, SlotWritten f' v.temp trace') ∧
          ∀ dst l, row'.instruction = .loadLocal dst l →
            SlotWritten f' (f'.temps.length + l) trace' := by
      rintro j rfl rfl hsrc
      rw [he.rows, if_pos rfl, List.getElem?_append_right (Nat.le_add_right _ _),
        Nat.add_sub_cancel_left, List.getElem?_map] at hrow'
      obtain ⟨row, hrow, rfl⟩ := Option.map_eq_some_iff.mp hrow'
      refine ⟨fun v hv => ?_, fun dst l hload => ?_⟩
      · rw [Row.rename, Instruction.inputs_rewrite] at hv
        obtain ⟨w, hw, rfl⟩ := List.mem_map.mp hv
        obtain ⟨k, hk, hwrs⟩ := he.closed.input_writes hrow hw
        exact slotWritten_of_writtenIn (he.copy_written hpath rfl hk hwrs)
      · obtain ⟨dst', hload'⟩ : ∃ dst', row.instruction = .loadLocal dst' l := by
          rw [Row.rename, ← Instruction.action_readLocal, Instruction.action_rewrite] at hload
          cases ha : row.instruction.action with
          | readLocal dst' l' =>
            rw [ha] at hload
            obtain ⟨-, rfl⟩ := Action.readLocal.inj hload
            exact ⟨dst', Instruction.action_readLocal.mp ha⟩
          | constant _ _ => rw [ha] at hload; cases hload
          | copy _ _ => rw [ha] at hload; cases hload
          | writeLocal _ _ => rw [ha] at hload; cases hload
          | operation => rw [ha] at hload; cases hload
        have hread := (h.reads.row header j trace row hsrc hrow).2 dst' l hload'
        exact slotWritten_of_localWritten (he.localWritten hprms hcovd (h.localWritten hread))
    rcases hcase with ⟨hle, hsrc⟩ | ⟨rfl, j, hij, hsrc⟩
    · by_cases hend : b = latch ∧ i = (f.rowsAt b).length
      · obtain ⟨rfl, rfl⟩ := hend
        refine hcopy rfl rfl (hsrc.jump ?_)
        simp [MirFunction.successorsAt, he.jump, Terminator.successors]
      · obtain ⟨row, hrow⟩ : ∃ row, (f.rowsAt b)[i]? = some row := by
          have hlt : i < (f.rowsAt b).length := by
            by_contra hge
            refine hend ⟨?_, by omega⟩
            by_contra hb
            have hlt := (List.getElem?_eq_some_iff.mp hrow').1
            rw [he.rows, if_neg hb] at hlt
            exact hge hlt
          exact ⟨_, List.getElem?_eq_getElem hlt⟩
        obtain rfl := Option.some.inj ((he.row_keep hrow).symm.trans hrow')
        refine ⟨fun v hv => slotWritten_of_writtenIn ?_, fun dst l hload => ?_⟩
        · by_cases hb : b = header
          · subst hb
            obtain ⟨k, hk, hwrs⟩ := he.closed.input_writes hrow hv
            exact he.header_written hpath hk hwrs
          · refine he.writtenIn hcovd (fun j hwrs => ?_) (h.input_written hsrc hrow hv)
            exact he.closed.rows v.temp j hwrs b hb row (List.mem_of_getElem? hrow) v hv rfl
        · have hread := (h.reads.row b i trace row hsrc hrow).2 dst l hload
          exact slotWritten_of_localWritten
            (he.localWritten hprms hcovd (h.localWritten hread))
    · exact hcopy rfl hij hsrc
  · obtain ⟨trace, hcovd, hcase⟩ := he.path hpath
    obtain ⟨cond, thenBlock, elseBlock, j, hbr, hwrs⟩ := he.closed.condition
    have hj : j < (f.rowsAt header).length := by
      obtain ⟨row, -, hget, -⟩ := hwrs
      exact (List.getElem?_eq_some_iff.mp hget).1
    rw [he.terminator] at hv
    refine slotWritten_of_writtenIn ?_
    by_cases hb : b = latch
    · subst hb
      rw [if_pos rfl, hbr] at hv
      obtain rfl : ρ cond = v := by simpa [Terminator.rewriteInput, Terminator.input] using hv
      refine he.copy_written hpath ?_ hj hwrs
      rw [he.rows, if_pos rfl, List.length_append, List.length_map]
    · rw [if_neg hb] at hv
      rw [he.rows, if_neg hb] at hpath hcase
      by_cases hhdr : b = header
      · subst hhdr
        rw [hbr] at hv
        obtain rfl : cond = v := by simpa [Terminator.input] using hv
        exact he.header_written hpath hj hwrs
      · rcases hcase with ⟨-, hsrc⟩ | ⟨hlatch, -⟩
        · obtain ⟨terminator, hterm, hinp⟩ := Option.bind_eq_some_iff.mp hv
          refine he.writtenIn hcovd (fun k hw => ?_)
            (h.terminator_written hsrc hterm hinp)
          exact he.closed.terminators v.temp k hw b hhdr v hv rfl
        · exact absurd hlatch hb

end Extended

/-! ## The extended function -/

variable {block : BasicBlock P} {i : Instruction P}

section Extend

variable {checks : Checks P} {f : MirFunction P} {context : Context} {latch header : BlockId}
variable {condition : BasicBlock P}

/-- What is asked of one instruction, kept when temporaries are renamed. -/
theorem InstructionOk.rename {f' : MirFunction P} {r : MirValue → MirValue}
    (hok : InstructionOk checks f i) (hlocs : f'.locals = f.locals)
    (hinps : ∀ v ∈ i.inputs, (r v).ty = v.ty ∧ Typed f' (r v) ∧
      f'.registerType (r v).temp = f.registerType v.temp)
    (houtput : ∀ v ∈ i.output, (r v).ty = v.ty ∧ Typed f' (r v) ∧
      f'.registerType (r v).temp = f.registerType v.temp) :
    InstructionOk checks f' (i.rewrite r r) := by
  refine ⟨fun v hv => ?_, fun v hv => ?_, ?_⟩
  · rw [Instruction.inputs_rewrite] at hv
    obtain ⟨w, hw, rfl⟩ := mem_map.mp hv
    exact (hinps w hw).2.1
  · rw [Instruction.output_rewrite] at hv
    obtain ⟨w, hw, rfl⟩ := Option.mem_map.mp hv
    exact (houtput w hw).2.1
  · have hop := hok.operation
    have hctr : checks.contract (i.rewrite r r).shape
        ((i.rewrite r r).inputs.map fun v => f'.registerType v.temp)
        ((i.rewrite r r).output.map fun v => f'.registerType v.temp) =
        checks.contract i.shape (i.inputs.map fun v => f.registerType v.temp)
          (i.output.map fun v => f.registerType v.temp) := by
      rw [Instruction.shape_rewrite (fun v hv => (hinps v hv).1) (fun v hv => (houtput v hv).1),
        Instruction.inputs_rewrite, Instruction.output_rewrite, map_map, Option.map_map]
      congr 1
      · exact map_congr_left (fun v hv => (hinps v hv).2.2)
      · exact Option.map_congr (fun v hv => (houtput v hv).2.2)
    cases i <;> first
      | exact hctr.trans hop
      | skip
    case loadConst dst c => exact (houtput dst rfl).1.trans hop
    case loadLocal dst l =>
      show f'.locals[l]? = some ⟨(r dst).ty⟩
      rw [hlocs, (houtput dst rfl).1]
      exact hop
    case storeLocal l src =>
      show f'.locals[l]? = some ⟨(r src).ty⟩
      rw [hlocs, (hinps src (by simp [Instruction.inputs])).1]
      exact hop
    case move dst src =>
      show (r dst).ty = (r src).ty
      rw [(houtput dst rfl).1, (hinps src (by simp [Instruction.inputs])).1]
      exact hop

variable (h : WellFormed checks f context) (hhdr : f.blocks[header]? = some condition)
  (hclos : Closed f header)
include h hhdr hclos

theorem duplicate_registers (hrng : f.RegistersInRange) :
    Registers f.temps f.semantic.registers condition.instructions (f.duplicate condition) := by
  refine registers_of_code _ _ hrng _ (fun i hi => ?_)
  rw [← header_instructions h.operands hhdr] at hi
  obtain ⟨row, hrow, rfl⟩ := mem_map.mp hi
  obtain ⟨j, hj⟩ := mem_iff_getElem?.mp hrow
  obtain ⟨dst, hdst⟩ := hclos.code.output row.instruction hi
  exact ⟨dst, hdst, typed_lt ((h.row_ok hj).output dst hdst)⟩

/-- A temporary of the condition and the fresh one in its place. -/
theorem replaced_value (hrng : f.RegistersInRange) {j : Nat}
    (hw : Writes f v.temp (header, j)) (hv : Typed f v) :
    (replaced (f.duplicate condition).replacements v).ty = v.ty ∧
      Typed (f.extend latch condition (f.duplicate condition))
        (replaced (f.duplicate condition).replacements v) ∧
      (f.extend latch condition (f.duplicate condition)).registerType
        (replaced (f.duplicate condition).replacements v).temp = f.registerType v.temp := by
  have hregs := duplicate_registers h hhdr hclos hrng
  have heq := (replaced_eq h.operands hhdr hclos hw hv).1
  refine ⟨by rw [heq], replaced_typed h.operands hhdr hclos hw hv, ?_⟩
  rw [heq]
  obtain ⟨row, dst, hrow, hdst, htemp⟩ := hw
  have hget : condition.instructions[j]? = some row.instruction := by
    rw [← header_instructions h.operands hhdr, getElem?_map, hrow]
    rfl
  rw [← htemp]
  exact hregs.copied j _ dst hget hdst

theorem registerType_extend (hrng : f.RegistersInRange) (ht : t < f.temps.length) :
    (f.extend latch condition (f.duplicate condition)).registerType t = f.registerType t :=
  (duplicate_registers h hhdr hclos hrng).keep t ht

theorem instructionOk_extend (hrng : f.RegistersInRange)
    (hok : InstructionOk checks f i) :
    InstructionOk checks (f.extend latch condition (f.duplicate condition)) i := by
  rw [← Instruction.rewrite_id i]
  refine hok.rename rfl (fun v hv => ⟨rfl, ?_, ?_⟩) (fun v hv => ⟨rfl, ?_, ?_⟩)
  · exact typed_extend h.operands hhdr hclos (hok.inputs v hv)
  · exact registerType_extend h hhdr hclos hrng (typed_lt (hok.inputs v hv))
  · exact typed_extend h.operands hhdr hclos (hok.output v hv)
  · exact registerType_extend h hhdr hclos hrng (typed_lt (hok.output v hv))

theorem terminatorOk_extend {t : Terminator} (hok : TerminatorOk f t) :
    TerminatorOk (f.extend latch condition (f.duplicate condition)) t := by
  refine ⟨fun target ht => ?_, fun v hv => typed_extend h.operands hhdr hclos (hok.input v hv),
    hok.returns, hok.branches⟩
  show target < (f.blocks.modify latch _).length
  rw [length_modify]
  exact hok.targets target ht

/-- The copies of the condition's instructions. -/
theorem copies_ok (hrng : f.RegistersInRange)
    (hi : i ∈ (f.duplicate condition).instructions) :
    InstructionOk checks (f.extend latch condition (f.duplicate condition)) i ∧
      ∃ original ∈ condition.instructions, i.effects = original.effects := by
  rw [(duplicate_duplicated h.operands hhdr hclos).instructions,
    ← header_instructions h.operands hhdr, map_map] at hi
  obtain ⟨row, hrow, rfl⟩ := mem_map.mp hi
  obtain ⟨j, hj⟩ := mem_iff_getElem?.mp hrow
  have hok := h.row_ok hj
  have hinps : ∀ v ∈ row.instruction.inputs, ∃ k, Writes f v.temp (header, k) := by
    intro v hv
    obtain ⟨k, -, hk⟩ := hclos.input_writes hj hv
    exact ⟨k, hk⟩
  refine ⟨hok.rename rfl (fun v hv => ?_) (fun v hv => ?_), row.instruction, ?_, ?_⟩
  · obtain ⟨k, hk⟩ := hinps v hv
    exact replaced_value h hhdr hclos hrng hk (hok.inputs v hv)
  · exact replaced_value h hhdr hclos hrng ⟨row, v, hj, hv, rfl⟩ (hok.output v hv)
  · rw [← header_instructions h.operands hhdr]
    exact mem_map_of_mem hrow
  · refine Instruction.effects_rewrite (fun v hv => ?_)
    obtain ⟨k, hk⟩ := hinps v hv
    have hval : _ ∧ Typed (f.extend latch condition (f.duplicate condition)) _ ∧ _ :=
      replaced_value h hhdr hclos hrng hk (hok.inputs v hv)
    exact hval.1

omit h hhdr hclos in
/-- The blocks of the extended function. -/
theorem mem_blocks_extend {copy : Duplicate P}
    (hmem : block ∈ (f.extend latch condition copy).blocks) : block ∈ f.blocks ∨
      ∃ original ∈ f.blocks, block = original.extend condition copy := by
  obtain ⟨b, hb⟩ := mem_iff_getElem?.mp hmem
  have hget : (f.blocks[b]?).map (fun original =>
      if latch = b then original.extend condition copy else original) = some block := by
    rw [← hb]
    show _ = (f.blocks.modify latch _)[b]?
    rw [getElem?_modify]
    split <;> simp
  obtain ⟨original, horig, heq⟩ := Option.map_eq_some_iff.mp hget
  have hmem' := mem_of_getElem? horig
  split at heq
  · exact .inr ⟨original, hmem', heq.symm⟩
  · exact .inl (heq ▸ hmem')

theorem blockOk_extend (hrng : f.RegistersInRange)
    (hmem : block ∈ (f.extend latch condition (f.duplicate condition)).blocks) :
    BlockOk checks (f.extend latch condition (f.duplicate condition)) block := by
  have hcond := h.blocks condition (mem_of_getElem? hhdr)
  rcases mem_blocks_extend hmem with hmem | ⟨original, horig, rfl⟩
  · obtain ⟨hdbg, hcode, t, ht, hok⟩ := h.blocks block hmem
    exact ⟨hdbg, fun i hi => instructionOk_extend h hhdr hclos hrng (hcode i hi), t, ht,
      terminatorOk_extend h hhdr hclos hok⟩
  · obtain ⟨hdbg, hcode, -⟩ := h.blocks original horig
    have hdbg' := hcond.debug
    refine ⟨?_, fun i hi => ?_, ?_⟩
    · have hlen : (f.duplicate condition).instructions.length = condition.instructions.length := by
        rw [(duplicate_duplicated h.operands hhdr hclos).instructions, length_map]
      unfold BasicBlock.debugValid at hdbg hdbg' ⊢
      simp only [BasicBlock.extend, Bool.and_eq_true, beq_iff_eq, length_append, hlen,
        all_append, MirFunction.extend] at hdbg hdbg' ⊢
      obtain ⟨⟨⟨hspn, hscps⟩, -⟩, hall, -⟩ := hdbg
      obtain ⟨⟨⟨hspn', hscps'⟩, hscp'⟩, hall', hlast'⟩ := hdbg'
      exact ⟨⟨⟨by omega, by omega⟩, hscp'⟩, ⟨hall, hall'⟩, hlast'⟩
    · rcases mem_append.mp hi with hi | hi
      · exact instructionOk_extend h hhdr hclos hrng (hcode i hi)
      · exact (copies_ok h hhdr hclos hrng hi).1
    · obtain ⟨cond, thenBlock, elseBlock, j, hbr, hw⟩ := hclos.condition
      have hterm : condition.terminator = some (.branch cond thenBlock elseBlock) := by
        simpa [MirFunction.terminatorAt, hhdr] using hbr
      have hok := h.terminator_ok hbr
      obtain ⟨hty, htyped, -⟩ : _ ∧ Typed (f.extend latch condition (f.duplicate condition)) _ ∧ _ :=
        replaced_value h hhdr hclos hrng hw (hok.input cond rfl)
      refine ⟨.branch (replaced (f.duplicate condition).replacements cond) thenBlock elseBlock, ?_,
        (terminatorOk_extend h hhdr hclos hok).targets, fun v hv => ?_, ?_, ?_⟩
      · simp [BasicBlock.extend, hterm, Terminator.rewriteInput]
      · obtain rfl : replaced (f.duplicate condition).replacements cond = v := by
          simpa [Terminator.input] using hv
        exact htyped
      · intro value heq
        cases heq
      · intro cond' thenBlock' elseBlock' heq
        obtain ⟨rfl, -, -⟩ := Terminator.branch.inj heq
        rw [hty]
        exact hok.branches cond thenBlock elseBlock rfl

theorem effects_extend (hrng : f.RegistersInRange) :
    f.effects.Covers (blocksEffects (f.extend latch condition (f.duplicate condition)).blocks {}) := by
  have hall := ((covers_blocksEffects f.blocks {}).mp h.effects).2
  rw [covers_blocksEffects]
  refine ⟨EffectSet.covers_empty _, fun block hmem => ?_⟩
  have hcond := hall condition (mem_of_getElem? hhdr)
  rcases mem_blocks_extend hmem with hmem | ⟨original, horig, rfl⟩
  · exact hall block hmem
  · refine ⟨fun i hi => ?_, ?_⟩
    · rcases mem_append.mp hi with hi | hi
      · exact (hall original horig).1 i hi
      · have hcopies : InstructionOk checks (f.extend latch condition (f.duplicate condition)) i ∧ _ :=
          copies_ok h hhdr hclos hrng hi
        obtain ⟨-, i', hi', heq⟩ := hcopies
        rw [heq]
        exact hcond.1 i' hi'
    · have hterm : (original.extend condition (f.duplicate condition)).terminator.elim {}
          (·.effects) = condition.terminator.elim {} (·.effects) := by
        unfold BasicBlock.extend
        cases condition.terminator with
        | none => rfl
        | some t => cases t <;> rfl
      rw [hterm]
      exact hcond.2

theorem layout_extend (hrng : f.RegistersInRange) :
    (f.extend latch condition (f.duplicate condition)).genericLayoutValid = true := by
  have hlay := h.layout
  unfold MirFunction.genericLayoutValid at hlay ⊢
  simp only [Bool.and_eq_true] at hlay ⊢
  obtain ⟨⟨⟨hprms, hlocs⟩, htemps⟩, hres⟩ := hlay
  refine ⟨⟨⟨hprms, hlocs⟩, ?_⟩, hres⟩
  rw [all_eq_true] at htemps ⊢
  rintro ⟨temp, t⟩ hmem
  have hget : (f.duplicate condition).temps[t]? = some temp := mk_mem_zipIdx_iff_getElem?.mp hmem
  have hcopy := duplicate_duplicated h.operands hhdr hclos
  have hregs := duplicate_registers h hhdr hclos hrng
  rw [hcopy.types] at hget
  rcases Nat.lt_or_ge t f.temps.length with ht | ht
  · rw [getElem?_append_left ht] at hget
    have hold := htemps (temp, t) (mk_mem_zipIdx_iff_getElem?.mpr hget)
    dsimp only at hold ⊢
    rw [registerType_extend h hhdr hclos hrng ht]
    exact hold
  · rw [getElem?_append_right ht, getElem?_map] at hget
    obtain ⟨i, hi, rfl⟩ := Option.map_eq_some_iff.mp hget
    obtain ⟨dst, hdst⟩ := hclos.code.output i
      (by rw [header_instructions h.operands hhdr]; exact mem_of_getElem? hi)
    have hcode := hi
    rw [← header_instructions h.operands hhdr, getElem?_map] at hcode
    obtain ⟨row, hrow, rfl⟩ := Option.map_eq_some_iff.mp hcode
    have hold := htemps (⟨dst.ty⟩, dst.temp)
      (mk_mem_zipIdx_iff_getElem?.mpr ((h.row_ok hrow).output dst hdst))
    have hsame : (f.extend latch condition (f.duplicate condition)).registerType t =
        f.registerType dst.temp := by
      have hnew := hregs.copied _ _ dst hi hdst
      rw [Nat.add_sub_cancel' ht] at hnew
      exact hnew
    dsimp only at hold ⊢
    rw [hsame, hdst]
    exact hold

/-- A well-formed function stays so. -/
theorem wellFormed_extend (hrng : f.RegistersInRange)
    (hjump : f.terminatorAt latch = some (.jump header)) :
    WellFormed checks (f.extend latch condition (f.duplicate condition)) context ∧
      (f.extend latch condition (f.duplicate condition)).RegistersInRange := by
  have hregs := duplicate_registers h hhdr hclos hrng
  have he := extend_extension h.operands hhdr hclos hjump
  have hlocs : (f.extend latch condition (f.duplicate condition)).locals = f.locals := rfl
  refine ⟨⟨h.signature, ?_, layout_extend h hhdr hclos hrng, ?_, ?_, ?_, h.origin, ?_,
    fun block hmem => blockOk_extend h hhdr hclos hrng hmem,
    effects_extend h hhdr hclos hrng, he.pathReads h rfl⟩, hregs.inRange⟩
  · have htys := h.types
    unfold MirFunction.typesValid at htys ⊢
    simp only [all_append, Bool.and_eq_true] at htys ⊢
    obtain ⟨⟨⟨hprms, hlocs⟩, hold⟩, hres⟩ := htys
    refine ⟨⟨⟨hprms, hlocs⟩, ?_⟩, hres⟩
    rw [all_eq_true] at hold ⊢
    intro ty hty
    obtain ⟨entry, hent, rfl⟩ := mem_map.mp hty
    obtain ⟨entry', hent', heq⟩ := hregs.types entry hent
    rw [← heq]
    exact hold _ (mem_map_of_mem hent')
  · show f.entry < (f.blocks.modify latch _).length
    rw [length_modify]
    exact h.entry
  · exact (checkParams_congr context hlocs f.params 0).trans h.params
  · exact (checkDebug_congr context hlocs rfl rfl).trans h.debug
  · intro span hspan
    refine h.spans span ?_
    unfold MirFunction.sourceSpans at hspan ⊢
    rcases mem_append.mp hspan with hspan | hspan
    · exact mem_append_left _ hspan
    · refine mem_append_right _ (mem_flatMap.mpr ?_)
      obtain ⟨block, hblk, hspan⟩ := mem_flatMap.mp hspan
      rcases mem_blocks_extend hblk with hblk | ⟨original, horig, rfl⟩
      · exact ⟨block, hblk, hspan⟩
      · -- the spans of the condition are the header's
        have hcond := mem_of_getElem? hhdr
        simp only [BasicBlock.extend, mem_append] at hspan
        rcases hspan with (hspan | hspan) | hspan
        · exact ⟨original, horig, mem_append_left _ hspan⟩
        · exact ⟨condition, hcond, mem_append_left _ hspan⟩
        · exact ⟨condition, hcond, mem_append_right _ hspan⟩

end Extend

end Accepted

end Kagari.Mir
