import Mathlib.Data.List.Induction
import Kagari.Mir.Rotation
import Kagari.Mir.Machine
import Kagari.Mir.Paths

/-!
# A duplicated condition

`Closed` is what the pass asks of a header: its rows compute, from nothing but each other, values
that no other block reads. `Extension` says what the function looks like with the condition
duplicated at the end of a block that jumps to the header; `extend_extension` reads it off
`MirFunction.extend`.
-/

namespace Kagari.Mir

open Lib Context List

variable {j : Nat} {t : TempId} {v : MirValue}

section Duplicate

variable {P : Type}

/-! ## Code over fresh temporaries -/

/-- The instruction at an index of some code computes the temporary. -/
def Computes (code : List (Instruction P)) (j : Nat) (t : TempId) : Prop :=
  ∃ i dst, code[j]? = some i ∧ i.output = some dst ∧ dst.temp = t

/-- Each instruction computes a temporary of its own, from those before it. -/
structure ClosedCode (code : List (Instruction P)) : Prop where
  output : ∀ i ∈ code, ∃ dst, i.output = some dst
  inputs : ∀ j i, code[j]? = some i → ∀ v ∈ i.inputs, ∃ k < j, Computes code k v.temp
  distinct : ∀ j k t, Computes code j t → Computes code k t → j = k

/-- The copy of some code. -/
structure Duplicated (temps : List MirTemp) (code : List (Instruction P)) (copy : Duplicate P) :
    Prop where
  types : copy.temps = temps ++ code.map (fun i => ⟨i.output.elim .unit (·.ty)⟩)
  replacements : ∀ (j : Nat) (i : Instruction P) (dst : MirValue), code[j]? = some i → i.output = some dst →
    copy.replacements dst.temp = some ⟨temps.length + j, dst.ty⟩
  instructions : copy.instructions =
    code.map (·.rewrite (replaced copy.replacements) (replaced copy.replacements))

variable {code rest : List (Instruction P)}

theorem Computes.append
    (h : Computes code j t) : Computes (code ++ rest) j t := by
  obtain ⟨i, dst, hi, hout, ht⟩ := h
  refine ⟨i, dst, ?_, hout, ht⟩
  rw [List.getElem?_append_left (List.getElem?_eq_some_iff.mp hi).1]
  exact hi

theorem Computes.of_append
    (hj : j < code.length) (h : Computes (code ++ rest) j t) : Computes code j t := by
  obtain ⟨i, dst, hi, hout, ht⟩ := h
  rw [getElem?_append_left hj] at hi
  exact ⟨i, dst, hi, hout, ht⟩

/-- The beginning of closed code is closed. -/
theorem ClosedCode.left (h : ClosedCode (code ++ rest)) :
    ClosedCode code := by
  refine ⟨fun i hi => h.output i (List.mem_append_left _ hi), fun j i hi v hv => ?_,
    fun j k t hj hk => h.distinct j k t hj.append hk.append⟩
  have hlt : j < code.length := (List.getElem?_eq_some_iff.mp hi).1
  obtain ⟨k, hk, hcomp⟩ := h.inputs j i (by rw [List.getElem?_append_left hlt]; exact hi) v hv
  exact ⟨k, hk, hcomp.of_append (by omega)⟩

theorem duplicated_of_closed (temps : List MirTemp) (registers : List (Nat × Ty))
    (code : List (Instruction P)) (h : ClosedCode code) :
    Duplicated temps code (code.foldl Duplicate.push
      { temps, registers, replacements := fun _ => none, instructions := [] }) := by
  induction code using List.reverseRecOn with
  | nil => exact ⟨by simp, by simp, by simp⟩
  | append_singleton code i ih =>
    have hcode := ih h.left
    rw [List.foldl_append, List.foldl_cons, List.foldl_nil]
    generalize code.foldl Duplicate.push
      { temps, registers, replacements := fun _ => none, instructions := [] } = copy at hcode
    obtain ⟨dst, hdst⟩ := h.output i (by simp)
    have hlast : Computes (code ++ [i]) code.length dst.temp := ⟨i, dst, by simp, hdst, rfl⟩
    have hfr : ∀ {k : Nat} {t : TempId}, Computes code k t → t ≠ dst.temp := by
      rintro k t hk rfl
      have hlt : k < code.length := by
        obtain ⟨_, _, hget, -⟩ := hk
        exact (List.getElem?_eq_some_iff.mp hget).1
      exact Nat.ne_of_lt hlt (h.distinct _ _ _ hk.append hlast)
    have hlen : copy.temps.length = temps.length + code.length := by
      rw [hcode.types, List.length_append, List.length_map]
    unfold Duplicate.push
    rw [hdst]
    dsimp only
    -- what was replaced before stays so
    have hkeep : ∀ {k : Nat} {v : MirValue}, Computes code k v.temp →
        replaced (Function.update copy.replacements dst.temp
          (some ⟨copy.temps.length, dst.ty⟩)) v = replaced copy.replacements v := by
      intro k v hk
      unfold replaced
      rw [Function.update_of_ne (hfr hk)]
    refine ⟨?_, fun j i' dst' hi' hout => ?_, ?_⟩
    · rw [hcode.types]
      simp [hdst]
    · rcases Nat.lt_or_ge j code.length with hj | hj
      · rw [List.getElem?_append_left hj] at hi'
        show Function.update _ _ _ _ = _
        rw [Function.update_of_ne (hfr ⟨i', dst', hi', hout, rfl⟩)]
        exact hcode.replacements j i' dst' hi' hout
      · rw [List.getElem?_append_right hj] at hi'
        have hlast : j = code.length := by
          have hlt := (List.getElem?_eq_some_iff.mp hi').1
          rw [List.length_singleton] at hlt
          omega
        obtain rfl : i = i' := by simpa [hlast] using hi'
        cases hdst.symm.trans hout
        show Function.update _ _ _ _ = _
        rw [Function.update_self, hlen, hlast]
    · rw [List.map_append, List.map_singleton]
      refine congrArg₂ (· ++ ·) (hcode.instructions.trans ?_) (congrArg (fun i => [i]) ?_)
      · refine List.map_congr_left (fun i' hi' => ?_)
        obtain ⟨j, hj⟩ := List.mem_iff_getElem?.mp hi'
        refine (Instruction.rewrite_congr (fun v hv => ?_) (fun v hv => ?_)).symm
        · obtain ⟨k, -, hk⟩ := h.left.inputs j i' hj v hv
          exact hkeep hk
        · exact hkeep ⟨i', v, hj, hv, rfl⟩
      · refine (Instruction.rewrite_congr (fun v hv => ?_) (fun v hv => ?_)).symm
        · obtain ⟨k, hk, hcomp⟩ := h.inputs code.length i (by simp) v hv
          exact hkeep (hcomp.of_append hk)
        · cases hdst.symm.trans hv
          simp [replaced]

theorem duplicateCode_spec (code : List (Instruction P)) : ∀ copy,
    Ensures (duplicateCode code copy) (fun out => out = code.foldl Duplicate.push copy) := by
  induction code with
  | nil => exact fun copy => .pure rfl
  | cons i code ih => exact fun copy => .seq (ih _)

/-! ## The extended function -/

/-- The temporaries that a header computes are its own. -/
structure Closed (f : MirFunction P) (header : BlockId) : Prop where
  code : ClosedCode ((f.rowsAt header).map (·.instruction))
  condition : ∃ cond thenBlock elseBlock j,
    f.terminatorAt header = some (.branch cond thenBlock elseBlock) ∧ Writes f cond.temp (header, j)
  rows : ∀ t j, Writes f t (header, j) → ∀ b ≠ header, ∀ row ∈ f.rowsAt b,
    ∀ v ∈ row.instruction.inputs, v.temp ≠ t
  terminators : ∀ t j, Writes f t (header, j) → ∀ b ≠ header, ∀ v,
    (f.terminatorAt b).bind (·.input) = some v → v.temp ≠ t

variable {f : MirFunction P}

theorem computes_iff_writes {b : BlockId} :
    Computes ((f.rowsAt b).map (·.instruction)) j t ↔ Writes f t (b, j) := by
  unfold Computes Writes
  constructor
  · rintro ⟨i, dst, hi, hout, ht⟩
    rw [getElem?_map] at hi
    obtain ⟨row, hrow, rfl⟩ := Option.map_eq_some_iff.mp hi
    exact ⟨row, dst, hrow, hout, ht⟩
  · rintro ⟨row, dst, hrow, hout, ht⟩
    exact ⟨row.instruction, dst, by rw [getElem?_map, hrow]; rfl, hout, ht⟩

/-- A row over other temporaries. -/
def Row.rename (ρ : MirValue → MirValue) (row : Row P) : Row P :=
  { row with instruction := row.instruction.rewrite ρ ρ }

/-- The function with a header's condition, renamed, in place of a jump to it. -/
structure Extension (f : MirFunction P) (latch header : BlockId) (ρ : MirValue → MirValue)
    (f' : MirFunction P) : Prop where
  ne : latch ≠ header
  jump : f.terminatorAt latch = some (.jump header)
  closed : Closed f header
  fresh : ∀ (t : TempId) (j : Nat), Writes f t (header, j) → ∀ v : MirValue, v.temp = t →
    (ρ v).temp = f.temps.length + j
  ty : ∀ row ∈ f.rowsAt header, (∀ v ∈ row.instruction.inputs, (ρ v).ty = v.ty) ∧
    ∀ v ∈ row.instruction.output, (ρ v).ty = v.ty
  entry : f'.entry = f.entry
  rows : ∀ b, f'.rowsAt b =
    if b = latch then f.rowsAt b ++ (f.rowsAt header).map (·.rename ρ) else f.rowsAt b
  terminator : ∀ b, f'.terminatorAt b =
    if b = latch then (f.terminatorAt header).map (·.rewriteInput ρ) else f.terminatorAt b
  terminatorSpan : ∀ b, f'.terminatorSpanAt b =
    if b = latch then f.terminatorSpanAt header else f.terminatorSpanAt b

theorem rows_extend {block condition : BasicBlock P} {copy : Duplicate P}
    {ρ : MirValue → MirValue} (hblk : block.Aligned) (hcond : condition.Aligned)
    (hcopy : copy.instructions = condition.instructions.map (·.rewrite ρ ρ)) :
    (block.extend condition copy).rows = block.rows ++ condition.rows.map (·.rename ρ) := by
  obtain ⟨hspn, hscps⟩ := hblk
  obtain ⟨hspn', hscps'⟩ := hcond
  unfold BasicBlock.extend BasicBlock.rows
  dsimp only
  rw [zip_append (by omega), zip_append (by rw [length_zip]; omega), map_append,
    hcopy]
  congr 1
  rw [map_map, zip_map_left, map_map]
  rfl

/-- The copy of a condition that the pass makes. -/
def MirFunction.duplicate (f : MirFunction P) (condition : BasicBlock P) : Duplicate P :=
  condition.instructions.foldl Duplicate.push
    { temps := f.temps, registers := f.semantic.registers, replacements := fun _ => none
      instructions := [] }

/-- The values of one temporary are one value. -/
theorem Typed.eq_of_temp {v w : MirValue} (hv : Typed f v) (hw : Typed f w)
    (heq : v.temp = w.temp) : v = w := by
  unfold Typed at hv hw
  rw [heq, hw] at hv
  obtain ⟨t, ty⟩ := v
  obtain ⟨t', ty'⟩ := w
  obtain rfl : t = t' := heq
  obtain rfl : ty' = ty := MirTemp.mk.inj (Option.some.inj hv)
  rfl

section Extend

variable {f : MirFunction P} {latch header : BlockId} {condition : BasicBlock P}
variable (h : Scoped f) (hhdr : f.blocks[header]? = some condition)
include h hhdr

theorem header_instructions : (f.rowsAt header).map (·.instruction) = condition.instructions := by
  rw [BasicBlock.instructions_eq (h.aligned condition (mem_of_getElem? hhdr))]
  simp [MirFunction.rowsAt, hhdr]

variable (hclos : Closed f header)
include hclos

theorem duplicate_duplicated :
    Duplicated f.temps condition.instructions (f.duplicate condition) :=
  duplicated_of_closed _ _ _ (header_instructions h hhdr ▸ hclos.code)

/-- The fresh temporary in the place of one of the condition's. -/
theorem replaced_eq (hw : Writes f v.temp (header, j)) (hv : Typed f v) :
    replaced (f.duplicate condition).replacements v = ⟨f.temps.length + j, v.ty⟩ ∧
      (f.duplicate condition).temps[f.temps.length + j]? = some ⟨v.ty⟩ := by
  have hcopy := duplicate_duplicated h hhdr hclos
  obtain ⟨row, dst, hrow, hdst, htemp⟩ := hw
  obtain rfl := Typed.eq_of_temp ((h.row header j row hrow).2 dst hdst) hv htemp
  have hget : condition.instructions[j]? = some row.instruction := by
    rw [← header_instructions h hhdr, getElem?_map, hrow]
    rfl
  constructor
  · unfold replaced
    rw [hcopy.replacements j _ dst hget hdst]
    rfl
  · rw [hcopy.types, getElem?_append_right (Nat.le_add_right _ _), Nat.add_sub_cancel_left,
      getElem?_map, hget]
    simp [hdst]

/-- The function that the pass builds for one latch. -/
theorem extend_extension (hjump : f.terminatorAt latch = some (.jump header)) :
    Extension f latch header (replaced (f.duplicate condition).replacements)
      (f.extend latch condition (f.duplicate condition)) := by
  have hne : latch ≠ header := by
    rintro rfl
    obtain ⟨cond, thenBlock, elseBlock, j, hbr, -⟩ := hclos.condition
    rw [hjump] at hbr
    cases hbr
  obtain ⟨block, hblk⟩ : ∃ block, f.blocks[latch]? = some block := by
    unfold MirFunction.terminatorAt at hjump
    obtain ⟨block, hblk, -⟩ := Option.bind_eq_some_iff.mp hjump
    exact ⟨block, hblk⟩
  have hrows := rows_extend (h.aligned block (mem_of_getElem? hblk))
    (h.aligned condition (mem_of_getElem? hhdr))
    (duplicate_duplicated h hhdr hclos).instructions
  have hblks : ∀ b, (f.extend latch condition (f.duplicate condition)).blocks[b]? =
      if b = latch then some (block.extend condition (f.duplicate condition)) else f.blocks[b]? := by
    intro b
    show (f.blocks.modify latch _)[b]? = _
    rw [getElem?_modify]
    split
    · rename_i heq
      subst heq
      simp [hblk]
    · rename_i hb
      rw [if_neg (Ne.symm hb)]
      cases f.blocks[b]? <;> rfl
  refine ⟨hne, hjump, hclos, fun t j hw v hv => ?_, fun row hrow => ?_, rfl, fun b => ?_,
    fun b => ?_, fun b => ?_⟩
  · obtain ⟨row, dst, hrow, hdst, rfl⟩ := hw
    have hsame := (replaced_eq h hhdr hclos ⟨row, dst, hrow, hdst, rfl⟩
      ((h.row header j row hrow).2 dst hdst)).1
    unfold replaced at hsame ⊢
    rw [hv]
    cases hrepl : (f.duplicate condition).replacements dst.temp with
    | none =>
      -- a typed temporary is below the fresh ones
      rw [hrepl] at hsame
      have hlt := typed_lt ((h.row header j row hrow).2 dst hdst)
      have heq : dst.temp = f.temps.length + j := congrArg MirValue.temp hsame
      exact absurd heq (Nat.ne_of_lt (Nat.lt_add_right _ hlt))
    | some value =>
      rw [hrepl] at hsame
      exact congrArg MirValue.temp hsame
  · obtain ⟨j, hj⟩ := mem_iff_getElem?.mp hrow
    obtain ⟨hinps, houtput⟩ := h.row header j row hj
    refine ⟨fun v hv => ?_, fun v hv => ?_⟩
    · obtain ⟨k, -, hk⟩ := hclos.code.inputs j row.instruction
        (by rw [getElem?_map, hj]; rfl) v hv
      rw [(replaced_eq h hhdr hclos (computes_iff_writes.mp hk) (hinps v hv)).1]
    · rw [(replaced_eq h hhdr hclos ⟨row, v, hj, hv, rfl⟩ (houtput v hv)).1]
  · unfold MirFunction.rowsAt
    rw [hblks b]
    split
    · rename_i heq
      subst heq
      simp [hblk, hhdr, hrows]
    · rfl
  · unfold MirFunction.terminatorAt
    rw [hblks b]
    split
    · simp [hhdr, BasicBlock.extend]
    · rfl
  · unfold MirFunction.terminatorSpanAt
    rw [hblks b]
    split
    · simp [hhdr, BasicBlock.extend]
    · rfl

theorem typed_extend (hv : Typed f v) :
    Typed (f.extend latch condition (f.duplicate condition)) v := by
  show (f.duplicate condition).temps[v.temp]? = some ⟨v.ty⟩
  rw [(duplicate_duplicated h hhdr hclos).types, getElem?_append_left (typed_lt hv)]
  exact hv

theorem replaced_typed (hw : Writes f v.temp (header, j))
    (hv : Typed f v) : Typed (f.extend latch condition (f.duplicate condition))
      (replaced (f.duplicate condition).replacements v) := by
  obtain ⟨heq, htemp⟩ := replaced_eq h hhdr hclos hw hv
  rw [heq]
  exact htemp

/-- The operands of the extended function are typed. -/
theorem scoped_extend (hjump : f.terminatorAt latch = some (.jump header)) :
    Scoped (f.extend latch condition (f.duplicate condition)) := by
  have he := extend_extension h hhdr hclos hjump
  refine ⟨fun block hmem => ?_, fun b i row hrow => ?_, fun b t ht v hv => ?_⟩
  · obtain ⟨b, hb⟩ := mem_iff_getElem?.mp hmem
    have hget : (f.blocks.modify latch (·.extend condition (f.duplicate condition)))[b]? =
      some block := hb
    rw [getElem?_modify] at hget
    obtain ⟨original, horig, heq⟩ := Option.map_eq_some_iff.mp hget
    obtain ⟨hspn, hscps⟩ := h.aligned original (mem_of_getElem? horig)
    split at heq
    · obtain ⟨hspn', hscps'⟩ := h.aligned condition (mem_of_getElem? hhdr)
      have hlen : (f.duplicate condition).instructions.length = condition.instructions.length := by
        rw [(duplicate_duplicated h hhdr hclos).instructions, length_map]
      rw [← heq]
      unfold BasicBlock.extend BasicBlock.Aligned
      simp only [length_append]
      omega
    · exact heq ▸ ⟨hspn, hscps⟩
  · rw [he.rows] at hrow
    have hold : ∀ {i : Nat} {row : Row P}, (f.rowsAt b)[i]? = some row →
        (∀ v ∈ row.instruction.inputs, Typed (f.extend latch condition (f.duplicate condition)) v) ∧
        ∀ v ∈ row.instruction.output, Typed (f.extend latch condition (f.duplicate condition)) v :=
      fun hrow => ⟨fun v hv => typed_extend h hhdr hclos ((h.row b _ _ hrow).1 v hv),
        fun v hv => typed_extend h hhdr hclos ((h.row b _ _ hrow).2 v hv)⟩
    split at hrow
    · rcases Nat.lt_or_ge i (f.rowsAt b).length with hi | hi
      · rw [getElem?_append_left hi] at hrow
        exact hold hrow
      · rw [getElem?_append_right hi, getElem?_map] at hrow
        obtain ⟨original, horig, rfl⟩ := Option.map_eq_some_iff.mp hrow
        obtain ⟨hinps, houtput⟩ := h.row header _ original horig
        refine ⟨fun v hv => ?_, fun v hv => ?_⟩
        · rw [Row.rename, Instruction.inputs_rewrite] at hv
          obtain ⟨w, hw, rfl⟩ := mem_map.mp hv
          obtain ⟨k, -, hk⟩ := hclos.code.inputs _ original.instruction
            (by rw [getElem?_map, horig]; rfl) w hw
          exact replaced_typed h hhdr hclos (computes_iff_writes.mp hk) (hinps w hw)
        · rw [Row.rename, Instruction.output_rewrite] at hv
          obtain ⟨w, hw, rfl⟩ := Option.mem_map.mp hv
          exact replaced_typed h hhdr hclos ⟨original, w, horig, hw, rfl⟩ (houtput w hw)
    · exact hold hrow
  · rw [he.terminator] at ht
    split at ht
    · obtain ⟨cond, thenBlock, elseBlock, j, hbr, hw⟩ := hclos.condition
      rw [hbr] at ht
      cases ht
      obtain rfl : replaced (f.duplicate condition).replacements cond = v := by
        simpa [Terminator.rewriteInput, Terminator.input] using hv
      exact replaced_typed h hhdr hclos hw (h.terminator header _ hbr cond rfl)
    · exact typed_extend h hhdr hclos (h.terminator b t ht v hv)

end Extend

end Duplicate

end Kagari.Mir
