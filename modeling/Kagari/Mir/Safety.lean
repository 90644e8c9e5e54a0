import Kagari.Mir.Dead.Typed

/-!
# Accepted functions run safely

Progress and preservation of the interpreter for functions that the verifier accepts: a run never gets
stuck, reads only what was written before, in the representation of its type, and returns a value of the
return type.
-/

namespace Kagari.Mir

open Lib Kagari.Runtime

section Safety

variable {P H W : Type} {w : World P H W} {f : MirFunction P} {checks : Checks P} {context : Context}
  {s : State (Value H) W} {trace : List Point}

/-- There is a row or a terminator here, and what it reads was written on the way and has the representation of its
type. -/
structure Enabled (f : MirFunction P) (trace : List Point) (s : State (Value H) W) : Prop where
  block : s.block < f.blocks.length
  inputs : ∀ row, (f.rowsAt s.block)[s.index]? = some row → ∀ v ∈ row.instruction.inputs,
    WrittenIn f trace v.temp ∧ (s.env v.temp).hasRepresentation v.ty = true
  load : ∀ row dst l, (f.rowsAt s.block)[s.index]? = some row → row.instruction = .loadLocal dst l →
    LocalWritten f trace l ∧ (s.locals l).hasRepresentation dst.ty = true
  terminator : (f.rowsAt s.block)[s.index]? = none → ∃ t, f.terminatorAt s.block = some t ∧
    ∀ v, t.input = some v → WrittenIn f trace v.temp ∧ (s.env v.temp).hasRepresentation v.ty = true

/-- An end that an accepted function may have. -/
def Ends (f : MirFunction P) : Outcome P (Value H) W → Prop
  | .returned value _ => f.returnType ≠ .never ∧
    value.elim (f.returnType = .unit) fun v => v.hasRepresentation f.returnType = true
  | .malformed => False
  | .trapped .. | .unreachable _ => True

theorem TypedAt.enabled (h : TypedAt f trace s) (hpath : Path f s.block s.index trace)
    (hwell : WellFormed checks f context) : Enabled f trace s := by
  have hblk := hwell.lt_of_path hpath
  refine ⟨hblk, fun row hrow v hv => ?_, fun row dst l hrow hi => ?_, fun hnone => ?_⟩
  · exact ⟨hwell.input_written hpath hrow hv, h.inputs hwell hpath hrow v hv⟩
  · have hop := (hwell.row_ok hrow).operation
    rw [hi] at hop
    have hwrtn := hwell.localWritten ((hwell.reads.row _ _ _ _ hpath hrow).2 dst l hi)
    exact ⟨hwrtn, h.locals l dst.ty hop hwrtn⟩
  · obtain ⟨t, ht, hok⟩ := (hwell.blocks _ (List.getElem_mem hblk)).terminator
    have hat : f.terminatorAt s.block = some t := by
      rw [MirFunction.terminatorAt, List.getElem?_eq_getElem hblk]
      exact ht
    have hidx : s.index = (f.rowsAt s.block).length :=
      le_antisymm hpath.index_le (List.getElem?_eq_none_iff.mp hnone)
    rw [hidx] at hpath
    refine ⟨t, hat, fun v hv => ?_⟩
    have hwrtn := hwell.terminator_written hpath hat hv
    exact ⟨hwrtn, h.temps v.temp v.ty (hok.input v hv) hwrtn⟩

theorem Enabled.ends (h : Enabled f trace s) (hwell : WellFormed checks f context) {outcome : Outcome P (Value H) W}
    (hhalt : interpret w f s = .halt outcome) : Ends f outcome := by
  unfold interpret at hhalt
  split at hhalt
  · unfold interpretRow stepRow at hhalt
    dsimp only at hhalt
    split at hhalt
    · cases hhalt
    · exact Step.halt.inj hhalt ▸ trivial
    · split at hhalt <;> first | cases hhalt | skip
      split at hhalt
      · exact Step.halt.inj hhalt ▸ trivial
      · cases hhalt
  · rename_i hrow
    obtain ⟨t, ht, hinp⟩ := h.terminator hrow
    rw [ht] at hhalt
    cases t with
    | ret value =>
      obtain rfl := Step.halt.inj hhalt
      obtain ⟨hnever, hty⟩ := (hwell.terminator_ok ht).returns value rfl
      refine ⟨hnever, ?_⟩
      cases value with
      | none => exact hty.symm
      | some v => exact hty ▸ (hinp v rfl).2
    | jump target => cases hhalt
    | branch cond thenBlock elseBlock => cases hhalt
    | unreachable => exact Step.halt.inj hhalt ▸ trivial

end Safety

/-- A run of an accepted function on arguments of its types, where what is done outside keeps the representation of
its locals: wherever it is, what it reads next was written by a row that it has run and has the representation of its
type; it never gets stuck, and returns a value of the return type. -/
theorem interpret_safe {P : Type} (checks : Checks P) (context : Context) (f : MirFunction P)
    (haccepted : Accepted checks.scalar f context) (H W : Type) (w : World P H W) (hw : w.KeepsLocals)
    (env : TempId → Value H) (locals : LocalId → Value H) (world : W) (harguments : f.Arguments locals) (n : Nat) :
    (Machine.run (interpret w f) n (start f env locals world)).2.elim
      (Enabled f ((Machine.trail (interpret w f) n (start f env locals world)).flatMap (rowPoint f))) (Ends f) := by
  have hwell := haccepted.wellFormed
  have hrun := Machine.run_trail (m := interpret w f) (O := Ends f)
    (I := fun states s => Path f s.block s.index (states.flatMap (rowPoint f)) ∧
      TypedAt f (states.flatMap (rowPoint f)) s)
    (fun states s s' _ hs hstep => by
      rw [List.flatMap_append, List.flatMap_singleton]
      exact hs.2.next hs.1 hw hwell hstep)
    (fun _ _ _ hs hhalt => (hs.2.enabled hs.1 hwell).ends hwell hhalt) n []
    (s := start f env locals world) ⟨.entry, typedAt_start harguments⟩
  rw [List.nil_append] at hrun
  generalize (Machine.run (interpret w f) n _).2 = stop at hrun
  cases stop with
  | inl s => exact hrun.2.enabled hrun.1 hwell
  | inr outcome => exact hrun

theorem interpret_safe_knownBranch :
    (Machine.run (interpret incomparable knownBranch) 4
      (start knownBranch (fun _ => .unit) (fun _ => .unit) ())).2.elim
      (Enabled knownBranch ((Machine.trail (interpret incomparable knownBranch) 4
        (start knownBranch (fun _ => .unit) (fun _ => .unit) ())).flatMap (rowPoint knownBranch))) (Ends knownBranch) :=
  interpret_safe openChecks _ knownBranch knownBranch_accepted Unit Unit incomparable
    (by simp [World.KeepsLocals, incomparable]) (fun _ => .unit) (fun _ => .unit) ()
    (by simp [MirFunction.Arguments, knownBranch]) 4

end Kagari.Mir
