import Kagari.Mir.VerifySound

/-!
# Paths of accepted functions

What the transformations of an accepted function rest on: along every path, temporaries are written
before they are read, with the type of their table entry; and a point that alone writes a temporary
is not reached only after it.
-/

namespace Kagari.Mir

open Lib Context List

variable {l : LocalId} {v : MirValue}

section Paths

variable {P : Type} {f : MirFunction P}

/-- Some point of the trace writes the temporary. -/
def WrittenIn (f : MirFunction P) (trace : List Point) (t : TempId) : Prop :=
  ∃ p ∈ trace, Writes f t p

variable {t : TempId}

theorem WrittenIn.append {trace rest : List Point} (h : WrittenIn f trace t) :
    WrittenIn f (trace ++ rest) t := by
  obtain ⟨p, hp, hw⟩ := h
  exact ⟨p, mem_append_left _ hp, hw⟩

variable {trace : List Point}

theorem writtenIn_snoc {p : Point} :
    WrittenIn f (trace ++ [p]) t ↔ WrittenIn f trace t ∨ Writes f t p := by
  unfold WrittenIn
  constructor
  · rintro ⟨q, hq, hw⟩
    rcases mem_append.mp hq with hq | hq
    · exact .inl ⟨q, hq, hw⟩
    · exact .inr (mem_singleton.mp hq ▸ hw)
  · rintro (⟨q, hq, hw⟩ | hw)
    · exact ⟨q, mem_append_left _ hq, hw⟩
    · exact ⟨p, by simp, hw⟩

variable {b : BlockId} {i : Nat}

/-- A point that a path has run is reached by a shorter path. -/
theorem Path.of_mem (h : Path f b i trace)
    {p : Point} (hp : p ∈ trace) : ∃ before, Path f p.1 p.2 before ∧ before.length < trace.length := by
  induction h with
  | entry => cases hp
  | next hpath hi ih =>
    rw [length_append, length_singleton]
    rcases mem_append.mp hp with hp | hp
    · obtain ⟨before, hbef, hlt⟩ := ih hp
      exact ⟨before, hbef, by omega⟩
    · obtain rfl := mem_singleton.mp hp
      exact ⟨_, hpath, by omega⟩
  | jump hpath hedge ih => exact ih hp

/-- A reached point has a path that has not been there before. -/
theorem Path.first (h : Path f b i trace) :
    ∃ first, Path f b i first ∧ (b, i) ∉ first := by
  induction hn : trace.length using Nat.strongRecOn generalizing trace with
  | ind n ih =>
    by_cases hmem : (b, i) ∈ trace
    · obtain ⟨before, hbef, hlt⟩ := h.of_mem hmem
      exact ih _ (hn ▸ hlt) hbef rfl
    · exact ⟨trace, h, hmem⟩

/-- Before the one point that writes it, not every path has written a temporary. -/
theorem not_written_of_writes (hr : Reached f b i)
    (hsing : ∀ p, Writes f t p → p = (b, i)) : ¬ Written f t b i := by
  intro hwrtn
  obtain ⟨trace, hpath⟩ := hr
  obtain ⟨first, hfst, hnot⟩ := hpath.first
  obtain ⟨p, hp, hw⟩ := hwrtn first hfst
  rw [hsing p hw] at hp
  exact hnot hp

/-- After the point that writes it, every path has written a temporary. -/
theorem written_of_writes (h : Writes f t (b, i)) :
    Written f t b (i + 1) := by
  intro trace hpath
  generalize hj : i + 1 = j at hpath
  cases hpath with
  | entry => cases hj
  | next hpath hi =>
    obtain rfl := Nat.succ.inj hj
    exact writtenIn_snoc.mpr (.inr h)
  | jump hpath hedge => cases hj

theorem Path.index_le (h : Path f b i trace) :
    i ≤ (f.rowsAt b).length := by
  cases h with
  | entry => exact Nat.zero_le _
  | next _ hi => exact hi
  | jump _ _ => exact Nat.zero_le _

theorem Written.jump {b target : BlockId} (h : Written f t target 0)
    (hedge : target ∈ f.successorsAt b) : Written f t b (f.rowsAt b).length :=
  fun trace hpath => h trace (hpath.jump hedge)

theorem Written.of_next (h : Written f t b (i + 1))
    (hi : i < (f.rowsAt b).length) (hw : ¬ Writes f t (b, i)) : Written f t b i := by
  intro trace hpath
  exact (writtenIn_snoc.mp (h _ (hpath.next hi))).resolve_right hw

/-! ## Reads -/

theorem writtenIn_of_slotWritten (ht : t < f.temps.length)
    (h : SlotWritten f t trace) : WrittenIn f trace t := by
  rcases h with h | ⟨p, hp, row, hrow, hslot⟩
  · obtain ⟨param, -, heq⟩ := mem_map.mp h
    exact absurd (heq ▸ Nat.le_add_right _ _) (Nat.not_le_of_lt ht)
  · refine ⟨p, hp, row, ?_⟩
    unfold definedSlots at hslot
    rcases mem_append.mp hslot with hslot | hslot
    · obtain ⟨v, hv, rfl⟩ := Option.map_eq_some_iff.mp (Option.mem_toList.mp hslot)
      exact ⟨v, hrow, hv, rfl⟩
    · split at hslot
      · obtain rfl := mem_singleton.mp hslot
        exact absurd (Nat.le_add_right _ _) (Nat.not_le_of_lt ht)
      · cases hslot

/-- A local that is a parameter, or that some row of the trace stores to. -/
def LocalWritten (f : MirFunction P) (trace : List Point) (l : LocalId) : Prop :=
  (∃ param ∈ f.params, param.localId = l) ∨ ∃ p ∈ trace, ∃ row src,
    (f.rowsAt p.1)[p.2]? = some row ∧ row.instruction = .storeLocal l src

theorem slotWritten_of_writtenIn (h : WrittenIn f trace t) : SlotWritten f t trace := by
  obtain ⟨p, hp, row, v, hrow, hout, rfl⟩ := h
  refine .inr ⟨p, hp, row, hrow, ?_⟩
  unfold definedSlots
  rw [hout]
  simp

theorem slotWritten_of_localWritten
    (h : LocalWritten f trace l) : SlotWritten f (f.temps.length + l) trace := by
  rcases h with ⟨param, hparam, rfl⟩ | ⟨p, hp, row, src, hrow, hsto⟩
  · exact .inl (mem_map_of_mem hparam)
  · refine .inr ⟨p, hp, row, hrow, ?_⟩
    unfold definedSlots
    rw [hsto]
    simp

variable {checks : Checks P} {context : Context} (h : WellFormed checks f context)
include h

variable {row : Row P}

theorem WellFormed.row_ok (hrow : (f.rowsAt b)[i]? = some row) :
    InstructionOk checks f row.instruction := by
  unfold MirFunction.rowsAt at hrow
  cases hb : f.blocks[b]? with
  | none => simp [hb] at hrow
  | some block =>
    have hmem := mem_of_getElem? hb
    have halgn := (h.blocks block hmem).aligned
    refine (h.blocks block hmem).code _ ?_
    rw [BasicBlock.instructions_eq halgn]
    simp only [hb, Option.elim_some] at hrow
    exact mem_map_of_mem (mem_of_getElem? hrow)

theorem WellFormed.input_written
    (hpath : Path f b i trace) (hrow : (f.rowsAt b)[i]? = some row)
    (hv : v ∈ row.instruction.inputs) : WrittenIn f trace v.temp :=
  writtenIn_of_slotWritten (typed_lt ((h.row_ok hrow).inputs v hv))
    ((h.reads.row b i trace row hpath hrow).1 v hv)

theorem WellFormed.localWritten
    (hw : SlotWritten f (f.temps.length + l) trace) : LocalWritten f trace l := by
  rcases hw with hw | ⟨p, hp, row, hrow, hslot⟩
  · obtain ⟨param, hparam, heq⟩ := mem_map.mp hw
    exact .inl ⟨param, hparam, Nat.add_left_cancel heq⟩
  · unfold definedSlots at hslot
    rcases mem_append.mp hslot with hslot | hslot
    · obtain ⟨v, hv, heq⟩ := Option.map_eq_some_iff.mp (Option.mem_toList.mp hslot)
      have hlt := typed_lt ((h.row_ok hrow).output v hv)
      exact absurd (heq ▸ Nat.le_add_right _ _) (Nat.not_le_of_lt hlt)
    · split at hslot
      · rename_i l' src hsto
        refine .inr ⟨p, hp, row, src, hrow, ?_⟩
        rw [Nat.add_left_cancel (mem_singleton.mp hslot)]
        exact hsto
      · cases hslot

theorem WellFormed.terminator_ok {t : Terminator} (ht : f.terminatorAt b = some t) :
    TerminatorOk f t := by
  unfold MirFunction.terminatorAt at ht
  obtain ⟨block, hb, ht⟩ := Option.bind_eq_some_iff.mp ht
  obtain ⟨t', ht', hok⟩ := (h.blocks block (mem_of_getElem? hb)).terminator
  rw [ht] at ht'
  exact Option.some.inj ht' ▸ hok

theorem WellFormed.terminator_written {t : Terminator}
    (hpath : Path f b (f.rowsAt b).length trace) (ht : f.terminatorAt b = some t)
    (hv : t.input = some v) : WrittenIn f trace v.temp := by
  refine writtenIn_of_slotWritten (typed_lt ((h.terminator_ok ht).input v hv)) ?_
  refine h.reads.terminator b trace v hpath ?_
  rw [ht, Option.bind_some, hv]

theorem WellFormed.lt_of_path (hpath : Path f b i trace) : b < f.blocks.length := by
  obtain ⟨walk, hwalk, -, -⟩ := (path_iff f).mp hpath
  exact (inRange_of_blockOk h.entry h.blocks).walk hwalk

/-! ## Typed operands -/

/-- Every operand has the type of its temporary. -/
structure Scoped (f : MirFunction P) : Prop where
  aligned : f.Aligned
  row : ∀ (b : BlockId) (i : Nat) (row : Row P), (f.rowsAt b)[i]? = some row →
    (∀ v ∈ row.instruction.inputs, Typed f v) ∧ ∀ v ∈ row.instruction.output, Typed f v
  terminator : ∀ b t, f.terminatorAt b = some t → ∀ v ∈ t.input, Typed f v

theorem WellFormed.operands : Scoped f :=
  ⟨aligned_of_blockOk h.blocks,
    fun _ _ _ hrow => ⟨(h.row_ok hrow).inputs, (h.row_ok hrow).output⟩,
    fun _ _ ht => (h.terminator_ok ht).input⟩

end Paths

end Kagari.Mir
