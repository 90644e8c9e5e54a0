import Kagari.Mir.Rotation.Duplicate

/-!
# Rotation preserves execution

A jump to the header, then the header's rows, do what the copy at the end of the latch does: the
original takes the jump alone, then both go row by row. The two states agree on all temporaries but
the condition's, which no other block reads.
-/

namespace Kagari.Mir

open Lib Context

section Sound

variable {P : Type} {V W : Type}

/-- The states agree on all but a header's own temporaries. -/
structure Agree (f : MirFunction P) (header : BlockId) (s t : State V W) : Prop where
  locals : t.locals = s.locals
  world : t.world = s.world
  env : ∀ u < f.temps.length, (∀ j, ¬ Writes f u (header, j)) → t.env u = s.env u

/-- The states of a function and its extension correspond: at the same point, or the extension in the
copy of the header. -/
inductive Rotated (f : MirFunction P) (latch header : BlockId) (s t : State V W) : Prop
  | same (agree : Agree f header s t) (block : t.block = s.block) (index : t.index = s.index)
      (le : s.index ≤ (f.rowsAt s.block).length)
      (computed : s.block = header → ∀ u j, j < s.index → Writes f u (header, j) →
        t.env u = s.env u)
  | copied (agree : Agree f header s t) (source : s.block = header) (block : t.block = latch)
      (index : t.index = (f.rowsAt latch).length + s.index)
      (le : s.index ≤ (f.rowsAt header).length)
      (computed : ∀ (u : TempId) (j : Nat), j < s.index → Writes f u (header, j) →
        t.env (f.temps.length + j) = s.env u)

variable {f f' : MirFunction P} {latch header : BlockId}
variable {ρ : MirValue → MirValue} {x : External P V W} {s t : State V W} {row : Row P}

/-- What a row of the header reads, rows before it have computed. -/
theorem Closed.input_writes (h : Closed f header) {j : Nat} (hrow : (f.rowsAt header)[j]? = some row)
    {v : MirValue} (hv : v ∈ row.instruction.inputs) : ∃ k < j, Writes f v.temp (header, k) := by
  obtain ⟨k, hk, hcomp⟩ := h.code.inputs j row.instruction (by rw [List.getElem?_map, hrow]; rfl)
    v hv
  exact ⟨k, hk, computes_iff_writes.mp hcomp⟩

theorem Closed.writes_unique (h : Closed f header) {u : TempId} {j k : Nat}
    (hj : Writes f u (header, j)) (hk : Writes f u (header, k)) : j = k :=
  h.code.distinct j k u (computes_iff_writes.mpr hj) (computes_iff_writes.mpr hk)

variable (h : Scoped f) (he : Extension f latch header ρ f')
include h he

/-- A row at the same point of both functions. -/
theorem Rotated.sameRow (agree : Agree f header s t) (hblk : t.block = s.block)
    (hidx : t.index = s.index)
    (computed : s.block = header → ∀ u j, j < s.index → Writes f u (header, j) →
      t.env u = s.env u)
    (hrow : (f.rowsAt s.block)[s.index]? = some row) :
    (∃ outcome, stepRow x row s = .halt outcome ∧ stepRow x row t = .halt outcome) ∨
    ∃ s' t' events, stepRow x row s = .next s' events ∧ stepRow x row t = .next t' events ∧
      Rotated f latch header s' t' := by
  have hi : s.index < (f.rowsAt s.block).length := (List.getElem?_eq_some_iff.mp hrow).1
  have hread : ∀ v ∈ row.instruction.inputs, (id v : MirValue).ty = v.ty ∧
      t.env (id v : MirValue).temp = s.env v.temp := by
    intro v hv
    refine ⟨rfl, ?_⟩
    by_cases hhdr : s.block = header
    · rw [hhdr] at hrow
      obtain ⟨k, hk, hw⟩ := he.closed.input_writes hrow hv
      exact computed hhdr v.temp k hk hw
    · refine agree.env v.temp (typed_lt ((h.row _ _ _ hrow).1 v hv)) (fun j hw => ?_)
      exact he.closed.rows v.temp j hw s.block hhdr row (List.mem_of_getElem? hrow) v hv rfl
  have hspan : row.span = row.span := rfl
  rcases stepRow_lockstep (x := x) hspan (Instruction.rewrite_id row.instruction).symm hread
    (fun _ _ => rfl) agree.locals agree.world with hhalt | ⟨s', t', events, hs', ht', hlock⟩
  · exact .inl hhalt
  · have henv : ∀ u, t.env u = s.env u → t'.env u = s'.env u := by
      intro u hu
      by_cases hw : ∃ dst, row.instruction.output = some dst ∧ dst.temp = u
      · obtain ⟨dst, hdst, rfl⟩ := hw
        exact hlock.written dst hdst
      · have hnot : ∀ dst ∈ row.instruction.output, dst.temp ≠ u :=
          fun dst hdst hu => hw ⟨dst, hdst, hu⟩
        rw [hlock.env u hnot, hlock.source.env u hnot]
        exact hu
    refine .inr ⟨s', t', events, hs', ht', .same ⟨hlock.locals, hlock.world, fun u hu hw => ?_⟩ ?_ ?_
      ?_ ?_⟩
    · exact henv u (agree.env u hu hw)
    · rw [hlock.block, hlock.source.block, hblk]
    · rw [hlock.index, hlock.source.index, hidx]
    · rw [hlock.source.index, hlock.source.block]
      exact hi
    · rw [hlock.source.index, hlock.source.block]
      intro hhdr u j hj hw
      rcases Nat.lt_succ_iff_lt_or_eq.mp hj with hj | rfl
      · exact henv u (computed hhdr u j hj hw)
      · rw [← hhdr] at hw
        obtain ⟨row', dst, hrow', hdst, rfl⟩ := hw
        cases hrow.symm.trans hrow'
        exact hlock.written dst hdst

omit h in
/-- A row of the header against its copy. -/
theorem Rotated.copiedRow (agree : Agree f header s t) (hsrc : s.block = header)
    (hblk : t.block = latch) (hidx : t.index = (f.rowsAt latch).length + s.index)
    (computed : ∀ (u : TempId) (j : Nat), j < s.index → Writes f u (header, j) →
      t.env (f.temps.length + j) = s.env u)
    (hrow : (f.rowsAt header)[s.index]? = some row) :
    (∃ outcome, stepRow x row s = .halt outcome ∧ stepRow x (row.rename ρ) t = .halt outcome) ∨
    ∃ s' t' events, stepRow x row s = .next s' events ∧ stepRow x (row.rename ρ) t = .next t' events ∧
      Rotated f latch header s' t' := by
  have hi : s.index < (f.rowsAt header).length := (List.getElem?_eq_some_iff.mp hrow).1
  obtain ⟨hinps, hout⟩ := he.ty row (List.mem_of_getElem? hrow)
  have hread : ∀ v ∈ row.instruction.inputs, (ρ v).ty = v.ty ∧
      t.env (ρ v).temp = s.env v.temp := by
    intro v hv
    obtain ⟨k, hk, hw⟩ := he.closed.input_writes hrow hv
    rw [he.fresh v.temp k hw v rfl]
    exact ⟨hinps v hv, computed v.temp k hk hw⟩
  obtain ⟨dst, hdst⟩ := he.closed.code.output row.instruction
    (List.mem_map_of_mem (List.mem_of_getElem? hrow))
  have hwrs : Writes f dst.temp (header, s.index) := ⟨row, dst, hrow, hdst, rfl⟩
  have hfr := he.fresh dst.temp s.index hwrs dst rfl
  have hspan : (row.rename ρ).span = row.span := rfl
  have hren : (row.rename ρ).instruction = row.instruction.rewrite ρ ρ := rfl
  rcases stepRow_lockstep (x := x) hspan hren hread hout agree.locals agree.world with hhalt | ⟨s', t', events,
    hs', ht', hlock⟩
  · exact .inl hhalt
  · have hkeep : ∀ {u : TempId}, u ≠ dst.temp → s'.env u = s.env u := by
      intro u hu
      refine hlock.source.env u (fun dst' hdst' heq => hu ?_)
      rw [← heq, Option.some.inj (hdst.symm.trans hdst')]
    have hkeep' : ∀ {u : TempId}, u ≠ f.temps.length + s.index → t'.env u = t.env u := by
      intro u hu
      refine hlock.env u (fun dst' hdst' heq => hu ?_)
      rw [← heq, ← Option.some.inj (hdst.symm.trans hdst'), hfr]
    refine .inr ⟨s', t', events, hs', ht', .copied ⟨hlock.locals, hlock.world, fun u hu hw => ?_⟩ ?_
      ?_ ?_ ?_ ?_⟩
    · have hne : u ≠ dst.temp := by
        rintro rfl
        exact hw s.index hwrs
      rw [hkeep hne, hkeep' (Nat.ne_of_lt (Nat.lt_add_right _ hu))]
      exact agree.env u hu hw
    · rw [hlock.source.block, hsrc]
    · rw [hlock.block, hblk]
    · rw [hlock.index, hidx, hlock.source.index, Nat.add_assoc]
    · rw [hlock.source.index]
      exact hi
    · rw [hlock.source.index]
      intro u j hj hw
      rcases Nat.lt_succ_iff_lt_or_eq.mp hj with hlt | rfl
      · have hu : u ≠ dst.temp := by
          rintro rfl
          exact Nat.ne_of_lt hlt (he.closed.writes_unique hw hwrs)
        rw [hkeep hu, hkeep' (fun heq => Nat.ne_of_lt hlt (Nat.add_left_cancel heq))]
        exact computed u j hlt hw
      · obtain ⟨row', dst', hrow', hdst', rfl⟩ := hw
        cases hrow.symm.trans hrow'
        cases hdst.symm.trans hdst'
        rw [← hfr]
        exact hlock.written dst hdst

omit h he in
/-- After an edge, both functions are at the start of the same block. -/
theorem Rotated.goto (agree : Agree f header s t) (target : BlockId) :
    Rotated f latch header (s.goto target) (t.goto target) :=
  .same ⟨agree.locals, agree.world, agree.env⟩ rfl rfl (Nat.zero_le _)
    (fun _ _ j hj => absurd hj (Nat.not_lt_zero j))

/-- One for the jump that the extension does not take, zero elsewhere. -/
def jumpRank (f : MirFunction P) (latch : BlockId) (s : State V W) : Nat :=
  if s.block = latch ∧ s.index = (f.rowsAt latch).length then 1 else 0

theorem rotation_simulation : Machine.Simulation (step x f) (step x f') (Rotated f latch header)
    (jumpRank f latch) := by
  refine ⟨fun s t hst => ?_⟩
  have hone : ∀ {s' : State V W} {events : List (Event P V)}, step x f s = .next s' events →
      Machine.run (step x f) (0 + 1) s = (events, .inl s') := by
    intro s' events hs
    simp [Machine.run, hs]
  cases hst with
  | same agree hblk hidx hle computed =>
    cases hrow : (f.rowsAt s.block)[s.index]? with
    | some row =>
      have hi : s.index < (f.rowsAt s.block).length := (List.getElem?_eq_some_iff.mp hrow).1
      have hstep : step x f s = stepRow x row s := by simp [step, hrow]
      have hrow' : (f'.rowsAt s.block)[s.index]? = some row := by
        rw [he.rows]
        split
        · rw [List.getElem?_append_left hi, hrow]
        · exact hrow
      have hstep' : step x f' t = stepRow x row t := by simp [step, hblk, hidx, hrow']
      rcases Rotated.sameRow (x := x) h he agree hblk hidx computed hrow with
        ⟨outcome, hs, ht⟩ | ⟨s', t', events, hs, ht, hst'⟩
      · exact .inl ⟨outcome, hstep.trans hs, hstep'.trans ht⟩
      · exact .inr ⟨0, s', events, hone (hstep.trans hs), .inr ⟨t', hstep'.trans ht, hst'⟩⟩
    | none =>
      have hend : s.index = (f.rowsAt s.block).length :=
        Nat.le_antisymm hle (List.getElem?_eq_none_iff.mp hrow)
      have hstep : step x f s = stepTerminator x (f.terminatorAt s.block)
          (f.terminatorSpanAt s.block) s := by
        simp [step, hrow]
      by_cases hlatch : s.block = latch
      · -- the original jumps to the header, the extension is already at its copy
        have hjump : step x f s = .next (s.goto header) [] := by
          rw [hstep, hlatch, he.jump]
          rfl
        refine .inr ⟨0, s.goto header, [], hone hjump, .inl ⟨rfl, ?_, ?_⟩⟩
        · refine .copied ⟨agree.locals, agree.world, agree.env⟩ rfl (hblk.trans hlatch) ?_
            (Nat.zero_le _) (fun _ j hj => absurd hj (Nat.not_lt_zero j))
          rw [hidx, hend, hlatch]
          rfl
        · unfold jumpRank
          rw [if_neg (fun heq => he.ne heq.1.symm), if_pos ⟨hlatch, hlatch ▸ hend⟩]
          exact Nat.one_pos
      · have hread : ∀ v, (f.terminatorAt s.block).bind (·.input) = some v →
            t.env (id v : MirValue).temp = s.env v.temp := by
          intro v hv
          by_cases hhdr : s.block = header
          · obtain ⟨cond, thenBlock, elseBlock, j, hbr, hw⟩ := he.closed.condition
            rw [hhdr, hbr] at hv
            obtain rfl : cond = v := by simpa [Terminator.input] using hv
            have hj : j < s.index := by
              rw [hend, hhdr]
              obtain ⟨row, -, hget, -⟩ := hw
              exact (List.getElem?_eq_some_iff.mp hget).1
            exact computed hhdr cond.temp j hj hw
          · obtain ⟨terminator, hterm, hinp⟩ := Option.bind_eq_some_iff.mp hv
            refine agree.env v.temp
              (typed_lt (h.terminator _ _ hterm v hinp)) (fun j hw => ?_)
            exact he.closed.terminators v.temp j hw s.block hhdr v hv rfl
        have hstep' : step x f' t = stepTerminator x
            ((f.terminatorAt s.block).map (·.rewriteInput id)) (f.terminatorSpanAt s.block) t := by
          have hid : (f.terminatorAt s.block).map (·.rewriteInput id) = f.terminatorAt s.block := by
            simp [Terminator.rewriteInput_id]
          unfold step
          rw [hid, hblk, hidx, he.rows, if_neg hlatch, hrow, he.terminator, if_neg hlatch,
            he.terminatorSpan, if_neg hlatch]
        rcases stepTerminator_lockstep (x := x) (f.terminatorSpanAt s.block) agree.world hread with
          ⟨outcome, hs, ht⟩ | ⟨target, -, hs, ht⟩
        · exact .inl ⟨outcome, hstep.trans hs, hstep'.trans ht⟩
        · exact .inr ⟨0, _, [], hone (hstep.trans hs),
            .inr ⟨_, hstep'.trans ht, .goto agree target⟩⟩
  | copied agree hsrc hblk hidx hle computed =>
    cases hrow : (f.rowsAt header)[s.index]? with
    | some row =>
      have hstep : step x f s = stepRow x row s := by simp [step, hsrc, hrow]
      have hstep' : step x f' t = stepRow x (row.rename ρ) t := by
        unfold step
        rw [hblk, hidx, he.rows, if_pos rfl, List.getElem?_append_right (Nat.le_add_right _ _),
          Nat.add_sub_cancel_left, List.getElem?_map, hrow]
        rfl
      rcases Rotated.copiedRow (x := x) he agree hsrc hblk hidx computed hrow with
        ⟨outcome, hs, ht⟩ | ⟨s', t', events, hs, ht, hst'⟩
      · exact .inl ⟨outcome, hstep.trans hs, hstep'.trans ht⟩
      · exact .inr ⟨0, s', events, hone (hstep.trans hs), .inr ⟨t', hstep'.trans ht, hst'⟩⟩
    | none =>
      have hend : s.index = (f.rowsAt header).length :=
        Nat.le_antisymm hle (List.getElem?_eq_none_iff.mp hrow)
      have hstep : step x f s = stepTerminator x (f.terminatorAt header)
          (f.terminatorSpanAt header) s := by
        simp [step, hsrc, hrow]
      have hstep' : step x f' t = stepTerminator x ((f.terminatorAt header).map (·.rewriteInput ρ))
          (f.terminatorSpanAt header) t := by
        unfold step
        rw [hblk, hidx, he.rows, if_pos rfl, List.getElem?_append_right (Nat.le_add_right _ _),
          Nat.add_sub_cancel_left, List.getElem?_map, hrow, he.terminator, if_pos rfl,
          he.terminatorSpan, if_pos rfl]
        rfl
      have hread : ∀ v, (f.terminatorAt header).bind (·.input) = some v →
          t.env (ρ v).temp = s.env v.temp := by
        intro v hv
        obtain ⟨cond, thenBlock, elseBlock, j, hbr, hw⟩ := he.closed.condition
        rw [hbr] at hv
        obtain rfl : cond = v := by simpa [Terminator.input] using hv
        have hj : j < s.index := by
          rw [hend]
          obtain ⟨row, -, hget, -⟩ := hw
          exact (List.getElem?_eq_some_iff.mp hget).1
        rw [he.fresh cond.temp j hw cond rfl]
        exact computed cond.temp j hj hw
      rcases stepTerminator_lockstep (x := x) (f.terminatorSpanAt header) agree.world hread with
        ⟨outcome, hs, ht⟩ | ⟨target, -, hs, ht⟩
      · exact .inl ⟨outcome, hstep.trans hs, hstep'.trans ht⟩
      · exact .inr ⟨0, _, [], hone (hstep.trans hs),
          .inr ⟨_, hstep'.trans ht, .goto agree target⟩⟩

/-- The extended function behaves as the function. -/
theorem extension_same : SameExecution f f' := by
  intro V W x env locals world
  refine (rotation_simulation h he).same (.same ⟨rfl, rfl, fun _ _ _ => rfl⟩ he.entry rfl
    (Nat.zero_le _) (fun _ _ j hj => absurd hj (Nat.not_lt_zero j)))

end Sound

end Kagari.Mir
