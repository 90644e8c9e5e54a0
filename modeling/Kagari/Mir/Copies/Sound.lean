import Kagari.Mir.Copies.Certificate
import Kagari.Mir.Paths

/-!
# Forwarding of copies preserves execution

* Statically (`Justified`): every fact, constant and alias names a temporary with one definition,
  which every path has already run.
* Along a run (`Holds`): a forwarded temporary and its alias have the same value, wherever every
  path has written it. Where a loop runs an alias's definition again, not every path has written
  the forwarded temporary, so nothing is claimed of it there.
* `Forwarded` relates the two functions' states: they agree on the temporaries that are their own
  alias. A removed row is a silent step of the original alone.
-/

namespace Kagari.Mir

open Lib Context Function Instruction List

variable {b : BlockId} {dst v : MirValue} {i : Nat} {l : LocalId} {t : TempId} {trace : List Point}

section Sound

variable {P : Type} {checks : Checks P} {f : MirFunction P} {context : Context}
variable {definitions : TempId → Nat} {starts : BlockId → Scan} {aliases : TempId → MirValue}

/-! ## Definitions -/

theorem ownValue_of_typed (h : Typed f v) : f.ownValue v.temp = v := by
  unfold MirFunction.ownValue
  rw [h]
  rfl

/-- The scan comes to the one definition of a temporary before it has an alias. -/
theorem Certificate.own_at_definition (hc : Certificate f definitions starts aliases)
    (hone : definitions t = 1) (hw : Writes f t (b, i)) :
    (scanAt f definitions starts b i).aliases t = f.ownValue t := by
  have hi : i < (f.rowsAt b).length := by
    obtain ⟨row, v, hrow, -⟩ := hw
    exact (List.getElem?_eq_some_iff.mp hrow).1
  rcases hc.seen b i t hi i (.inl rfl) with heq | heq
  · exact heq
  · rcases hc.changed t with hown | ⟨b', i', hi', hold, hnew⟩
    · rw [heq, hown]
    · rcases aliases_succ (List.getElem?_eq_getElem hi') t with hsame | ⟨-, hw'⟩
      · rw [heq, ← hnew, hsame, hold]
      · cases hc.single t hone _ _ hw hw'
        exact hold

variable {row : Row P}

/-- The row that defines a forwarded temporary is the one that sets its alias. -/
theorem Certificate.source (hc : Certificate f definitions starts aliases)
    (hrow : (f.rowsAt b)[i]? = some row)
    (hne : aliases t ≠ f.ownValue t) (hw : Writes f t (b, i)) :
    definitions t = 1 ∧ ∃ dst, dst.temp = t ∧
      Source f definitions (scanAt f definitions starts b i) dst (aliases t)
        (row.instruction.rewriteInputs (aliased (scanAt f definitions starts b i).aliases)) := by
  obtain ⟨b', i', hi', hold, hnew⟩ := (hc.changed t).resolve_left hne
  obtain ⟨hone, hw'⟩ := (aliases_succ (getElem?_eq_getElem hi') t).resolve_left
    (fun hsame => hne (by rw [← hnew, hsame, hold]))
  cases hc.single t hone _ _ hw hw'
  refine ⟨hone, ?_⟩
  rw [scanAt_succ hrow] at hnew
  rcases (scanRow_spec f definitions (scanAt f definitions starts b i) row).aliases with
    ⟨heq, -⟩ | ⟨dst, value, -, hsource, heq, -⟩
  · rw [heq, hold] at hnew
    exact absurd hnew.symm hne
  · rw [heq] at hnew
    by_cases ht : t = dst.temp
    · subst ht
      rw [update_self] at hnew
      exact ⟨dst, rfl, hnew ▸ hsource⟩
    · rw [update_of_ne ht, hold] at hnew
      exact absurd hnew.symm hne

/-! ## What the facts rest on -/

/-- The one definition of the value's temporary is in the trace. -/
structure Known (f : MirFunction P) (definitions : TempId → Nat) (trace : List Point)
    (v : MirValue) : Prop where
  single : definitions v.temp = 1
  typed : Typed f v
  written : WrittenIn f trace v.temp

theorem Known.append {trace rest : List Point} (h : Known f definitions trace v) :
    Known f definitions (trace ++ rest) v :=
  ⟨h.single, h.typed, h.written.append⟩

/-- The facts, constants and aliases at a point name values that the trace has defined. -/
structure Justified (f : MirFunction P) (definitions : TempId → Nat) (starts : BlockId → Scan)
    (aliases : TempId → MirValue) (b : BlockId) (i : Nat) (trace : List Point) : Prop where
  forwarded : ∀ t, WrittenIn f trace t → aliases t ≠ f.ownValue t →
    Known f definitions trace (aliases t) ∧ (aliases t).ty = (f.ownValue t).ty
  fact : ∀ l v, (scanAt f definitions starts b i).locals.getD l none = some v →
    Known f definitions trace v
  constant : ∀ key v, (key, v) ∈ (scanAt f definitions starts b i).constants →
    Known f definitions trace v ∧ v.ty = key.1.ty

section Static

variable {b : BlockId} {i : Nat} {trace : List Point} {row : Row P}

/-- The alias that the scan uses for a value that the trace has computed. -/
theorem Justified.lookup (hc : Certificate f definitions starts aliases)
    (hj : Justified f definitions starts aliases b i trace) (hi : i < (f.rowsAt b).length)
    (htyped : Typed f v) (hw : WrittenIn f trace v.temp) :
    (scanAt f definitions starts b i).aliases v.temp = v ∨
      (aliases v.temp ≠ f.ownValue v.temp ∧
        (scanAt f definitions starts b i).aliases v.temp = aliases v.temp ∧
        Known f definitions trace (aliases v.temp) ∧ (aliases v.temp).ty = v.ty) := by
  have hown := ownValue_of_typed htyped
  by_cases hne : aliases v.temp = f.ownValue v.temp
  · rcases hc.seen b i v.temp hi i (.inl rfl) with heq | heq
    · exact .inl (heq.trans hown)
    · exact .inl (heq.trans (hne.trans hown))
  · rcases hc.seen b i v.temp hi i (.inl rfl) with heq | heq
    · exact .inl (heq.trans hown)
    · obtain ⟨hkn, hty⟩ := hj.forwarded v.temp hw hne
      rw [hown] at hty
      exact .inr ⟨hne, heq, hkn, hty⟩

variable {r : MirValue → MirValue}

theorem rewriteInputs_loadConst {i : Instruction P}
    {c : Constant} (h : i.rewriteInputs r = .loadConst dst c) : i = .loadConst dst c := by
  cases i <;> simp_all [rewriteInputs, rewrite]

theorem rewriteInputs_loadLocal {i : Instruction P}
    (h : i.rewriteInputs r = .loadLocal dst l) : i = .loadLocal dst l := by
  cases i <;> simp_all [rewriteInputs, rewrite]

theorem rewriteInputs_storeLocal {i : Instruction P}
    (h : i.rewriteInputs r = .storeLocal l v) :
    ∃ src, i = .storeLocal l src ∧ r src = v := by
  cases i <;> simp_all [rewriteInputs, rewrite]

theorem rewriteInputs_move {i : Instruction P} {dst v : MirValue}
    (h : i.rewriteInputs r = .move dst v) : ∃ src, i = .move dst src ∧ r src = v := by
  cases i <;> simp_all [rewriteInputs, rewrite]

theorem same_ty {a b : MirValue} (h : f.same a b = true) : a.ty = b.ty := by
  unfold MirFunction.same at h
  simp only [Bool.and_eq_true, beq_iff_eq] at h
  exact h.1

theorem mem_of_lookup {key : Constant × Option Ty}
    {constants : List ((Constant × Option Ty) × MirValue)} (h : constants.lookup key = some v) :
    (key, v) ∈ constants := by
  induction constants with
  | nil => cases h
  | cons entry constants ih =>
    obtain ⟨key', v'⟩ := entry
    rw [lookup_cons] at h
    split at h
    · rename_i heq
      obtain rfl := beq_iff_eq.mp heq
      cases h
      exact mem_cons_self
    · exact mem_cons_of_mem _ (ih h)

/-- A forwarded value was defined before the row that is forwarded. -/
theorem Justified.source (h : WellFormed checks f context)
    (hc : Certificate f definitions starts aliases)
    (hj : Justified f definitions starts aliases b i trace) (hpath : Path f b i trace)
    (hrow : (f.rowsAt b)[i]? = some row) {dst value : MirValue}
    (hsource : Source f definitions (scanAt f definitions starts b i) dst value
      (row.instruction.rewriteInputs (aliased (scanAt f definitions starts b i).aliases))) :
    Known f definitions trace value ∧ value.ty = dst.ty := by
  have hi : i < (f.rowsAt b).length := (List.getElem?_eq_some_iff.mp hrow).1
  have hok := h.row_ok hrow
  generalize hinstr : row.instruction.rewriteInputs
    (aliased (scanAt f definitions starts b i).aliases) = instruction at hsource
  cases hsource with
  | constant hlook =>
    obtain ⟨hkn, hty⟩ := hj.constant _ _ (mem_of_lookup hlook)
    have hop := hok.operation
    rw [rewriteInputs_loadConst hinstr] at hop
    exact ⟨hkn, hty.trans hop.symm⟩
  | readLocal hfact hsame => exact ⟨hj.fact _ _ hfact, (same_ty hsame).symm⟩
  | copy hone hsame =>
    refine ⟨?_, (same_ty hsame).symm⟩
    obtain ⟨src, hsrc, heq⟩ := rewriteInputs_move hinstr
    have hmem : src ∈ row.instruction.inputs := by simp [hsrc, inputs]
    have htyped := hok.inputs src hmem
    have hwrtn := h.input_written hpath hrow hmem
    rcases hj.lookup hc hi htyped hwrtn with hsame | ⟨-, hsame, hkn, -⟩
    · obtain rfl : src = value := hsame.symm.trans heq
      exact ⟨hone, htyped, hwrtn⟩
    · obtain rfl : aliases src.temp = value := hsame.symm.trans heq
      exact hkn

/-- One row of a path. -/
theorem Justified.next (h : WellFormed checks f context)
    (hc : Certificate f definitions starts aliases)
    (hj : Justified f definitions starts aliases b i trace) (hpath : Path f b i trace)
    (hrow : (f.rowsAt b)[i]? = some row) :
    Justified f definitions starts aliases b (i + 1) (trace ++ [(b, i)]) := by
  have hi : i < (f.rowsAt b).length := (List.getElem?_eq_some_iff.mp hrow).1
  have hok := h.row_ok hrow
  have hscan := scanRow_spec f definitions (scanAt f definitions starts b i) row
  rw [← scanAt_succ hrow] at hscan
  have halias : ∀ t, WrittenIn f (trace ++ [(b, i)]) t → aliases t ≠ f.ownValue t →
      Known f definitions (trace ++ [(b, i)]) (aliases t) ∧
        (aliases t).ty = (f.ownValue t).ty := by
    intro t hw hne
    rcases writtenIn_snoc.mp hw with hw | hw
    · obtain ⟨hkn, hty⟩ := hj.forwarded t hw hne
      exact ⟨hkn.append, hty⟩
    · obtain ⟨-, dst, rfl, hsource⟩ := hc.source hrow hne hw
      obtain ⟨hkn, hty⟩ := hj.source h hc hpath hrow hsource
      have hout : row.instruction.output = some dst := by
        simpa [rewriteInputs] using hsource.output
      rw [ownValue_of_typed (hok.output dst hout)]
      exact ⟨hkn.append, hty⟩
  refine ⟨halias, fun l v hv => ?_, fun key v hv => ?_⟩
  · obtain ⟨-, hv | ⟨hsto, hone⟩ | ⟨dst, hload, hone, rfl⟩⟩ := hscan.locals l v hv
    · exact (hj.fact l v hv.1).append
    · obtain ⟨src, hsrc, heq⟩ := rewriteInputs_storeLocal hsto
      have hmem : src ∈ row.instruction.inputs := by simp [hsrc, inputs]
      have htyped := hok.inputs src hmem
      have hwrtn := h.input_written hpath hrow hmem
      rcases hj.lookup hc hi htyped hwrtn with hsame | ⟨-, hsame, hkn, -⟩
      · obtain rfl : src = v := hsame.symm.trans heq
        exact ⟨hone, htyped, hwrtn.append⟩
      · obtain rfl : aliases src.temp = v := hsame.symm.trans heq
        exact hkn.append
    · have hload' := rewriteInputs_loadLocal hload
      have hout : row.instruction.output = some dst := by rw [hload']; rfl
      have htyped := hok.output dst hout
      have hwrtn : WrittenIn f (trace ++ [(b, i)]) dst.temp :=
        writtenIn_snoc.mpr (.inr ⟨row, dst, hrow, hout, rfl⟩)
      have hown : Known f definitions (trace ++ [(b, i)]) (f.ownValue dst.temp) := by
        rw [ownValue_of_typed htyped]
        exact ⟨hone, htyped, hwrtn⟩
      rcases hc.seen b i dst.temp hi (i + 1) (.inr rfl) with heq | heq
      · rw [heq]
        exact hown
      · rw [heq]
        by_cases hne : aliases dst.temp = f.ownValue dst.temp
        · rw [hne]
          exact hown
        · exact (halias dst.temp hwrtn hne).1
  · rcases hscan.constants key v hv with hv | ⟨c, hload, hone, rfl⟩
    · obtain ⟨hkn, hty⟩ := hj.constant key v hv
      exact ⟨hkn.append, hty⟩
    · have hload' := rewriteInputs_loadConst hload
      have hout : row.instruction.output = some v := by rw [hload']; rfl
      have hop := hok.operation
      rw [hload'] at hop
      refine ⟨⟨hone, hok.output v hout, ?_⟩, hop⟩
      exact writtenIn_snoc.mpr (.inr ⟨row, v, hrow, hout, rfl⟩)

/-- The facts are justified on every path. -/
theorem justified (h : WellFormed checks f context) (hc : Certificate f definitions starts aliases)
    (hpath : Path f b i trace) : Justified f definitions starts aliases b i trace := by
  induction hpath with
  | entry =>
    refine ⟨fun t hw => ?_, fun l v hv => ?_, fun key v hv => ?_⟩
    · obtain ⟨p, hp, -⟩ := hw
      cases hp
    · exact absurd rfl (hc.facts f.entry h.entry l v hv).1
    · rw [scanAt_zero, hc.constants f.entry h.entry] at hv
      cases hv
  | next hpath hi ih => exact ih.next h hc hpath (getElem?_eq_getElem hi)
  | @jump b target trace hpath hedge ih =>
    have htgt := h.lt_of_path (hpath.jump hedge)
    refine ⟨ih.forwarded, fun l v hv => ?_, fun key v hv => ?_⟩
    · exact ih.fact l v ((hc.facts target htgt l v hv).2 b hedge)
    · rw [scanAt_zero, hc.constants target htgt] at hv
      cases hv

end Static

/-! ## What holds along a run -/

/-- Facts, constants and aliases are true of a state. -/
structure Holds {V W : Type} (f : MirFunction P) (definitions : TempId → Nat)
    (starts : BlockId → Scan) (aliases : TempId → MirValue) (x : External P V W)
    (s : State V W) : Prop where
  reached : Reached f s.block s.index
  forwarded : ∀ t, aliases t ≠ f.ownValue t → Written f t s.block s.index →
    s.env t = s.env (aliases t).temp
  fact : ∀ l v, (scanAt f definitions starts s.block s.index).locals.getD l none = some v →
    s.locals l = s.env v.temp
  constant : ∀ key v, (key, v) ∈ (scanAt f definitions starts s.block s.index).constants →
    s.env v.temp = x.constant key.1

section Dynamic

variable {V W : Type} {x : External P V W} {s s' : State V W} {row : Row P}

theorem env_of_not_writes (hfr : Framed row s s') (hrow : (f.rowsAt s.block)[s.index]? = some row)
    (hw : ¬ Writes f t (s.block, s.index)) : s'.env t = s.env t :=
  hfr.env t (fun dst hdst ht => hw ⟨row, dst, hrow, hdst, ht⟩)

variable {b : BlockId} {v : MirValue}

/-- A value that every path has defined is not defined again at this point. -/
theorem not_writes_of_known (hc : Certificate f definitions starts aliases)
    (hr : Reached f b i) (hone : definitions v.temp = 1)
    (hw : Written f v.temp b i) : ¬ Writes f v.temp (b, i) :=
  fun hwrs => not_written_of_writes hr (fun _ hp => hc.single _ hone _ _ hp hwrs) hw

variable (h : WellFormed checks f context) (hc : Certificate f definitions starts aliases)
include h hc

theorem written_of_fact
    (hv : (scanAt f definitions starts b i).locals.getD l none = some v) : Written f v.temp b i :=
  fun _ hpath => ((justified h hc hpath).fact l v hv).written

theorem single_of_fact (hr : Reached f b i)
    (hv : (scanAt f definitions starts b i).locals.getD l none = some v) :
    definitions v.temp = 1 :=
  hr.elim fun _ hpath => ((justified h hc hpath).fact l v hv).single

/-- The scan's alias of an input has the input's value. -/
theorem Holds.lookup (hs : Holds f definitions starts aliases x s)
    (hrow : (f.rowsAt s.block)[s.index]? = some row)
    (hv : v ∈ row.instruction.inputs) :
    s.env ((scanAt f definitions starts s.block s.index).aliases v.temp).temp = s.env v.temp := by
  obtain ⟨trace, hpath⟩ := hs.reached
  have hi : s.index < (f.rowsAt s.block).length := (List.getElem?_eq_some_iff.mp hrow).1
  rcases (justified h hc hpath).lookup hc hi ((h.row_ok hrow).inputs v hv)
    (h.input_written hpath hrow hv) with heq | ⟨hne, heq, -⟩
  · rw [heq]
  · rw [heq]
    exact (hs.forwarded v.temp hne (fun _ hpath' => h.input_written hpath' hrow hv)).symm

/-- One row keeps the facts true. -/
theorem Holds.next (hs : Holds f definitions starts aliases x s)
    (hrow : (f.rowsAt s.block)[s.index]? = some row) {events : List (Event P V)}
    (hstep : stepRow x row s = .next s' events) : Holds f definitions starts aliases x s' := by
  have hfr := stepRow_framed hstep
  have hi : s.index < (f.rowsAt s.block).length := (List.getElem?_eq_some_iff.mp hrow).1
  obtain ⟨trace, hpath⟩ := hs.reached
  have hscan := scanRow_spec f definitions (scanAt f definitions starts s.block s.index) row
  rw [← scanAt_succ hrow] at hscan
  have hkeep : ∀ {v : MirValue}, definitions v.temp = 1 → Written f v.temp s.block s.index →
      s'.env v.temp = s.env v.temp := fun hone hw =>
    env_of_not_writes hfr hrow (not_writes_of_known hc hs.reached hone hw)
  have hfwd : ∀ t, aliases t ≠ f.ownValue t → Written f t s.block (s.index + 1) →
      s'.env t = s'.env (aliases t).temp := by
    intro t hne hw
    by_cases hwrs : Writes f t (s.block, s.index)
    · obtain ⟨-, dst, rfl, hsource⟩ := hc.source hrow hne hwrs
      have hkn := fun trace (hpath : Path f s.block s.index trace) =>
        ((justified h hc hpath).source h hc hpath hrow hsource).1
      rw [hkeep (hkn trace hpath).single (fun trace hpath => (hkn trace hpath).written)]
      generalize hinstr : row.instruction.rewriteInputs
        (aliased (scanAt f definitions starts s.block s.index).aliases) = instruction at hsource
      cases hsource with
      | constant hlook =>
        rw [hs.constant _ _ (mem_of_lookup hlook)]
        simp only [stepRow, rewriteInputs_loadConst hinstr, action] at hstep
        cases hstep
        simp [State.assign]
      | readLocal hfact =>
        rw [← hs.fact _ _ hfact]
        simp only [stepRow, rewriteInputs_loadLocal hinstr, action] at hstep
        cases hstep
        simp [State.assign]
      | copy =>
        obtain ⟨src, hsrc, heq⟩ := rewriteInputs_move hinstr
        have hval := hs.lookup h hc hrow (v := src) (by simp [hsrc, inputs])
        rw [← heq]
        refine Eq.trans ?_ hval.symm
        simp only [stepRow, hsrc, action] at hstep
        cases hstep
        simp [State.assign]
    · have hbef := hw.of_next hi hwrs
      have hkn := fun trace (hpath : Path f s.block s.index trace) =>
        ((justified h hc hpath).forwarded t (hbef trace hpath) hne).1
      rw [hkeep (hkn trace hpath).single (fun trace hpath => (hkn trace hpath).written),
        env_of_not_writes hfr hrow hwrs]
      exact hs.forwarded t hne hbef
  obtain ⟨hblk, hidx⟩ : s'.block = s.block ∧ s'.index = s.index + 1 :=
    ⟨hfr.block, hfr.index⟩
  refine ⟨?_, ?_, ?_, ?_⟩ <;> rw [hblk, hidx]
  · exact ⟨_, hpath.next hi⟩
  · exact hfwd
  · intro l v hv
    obtain ⟨hcalls, ⟨hold, hsto⟩ | ⟨hsto, hone⟩ | ⟨dst, hload, hone, rfl⟩⟩ := hscan.locals l v hv
    · rw [hkeep (single_of_fact h hc hs.reached hold) (written_of_fact h hc hold),
        hfr.locals l ?_ ?_]
      · exact hs.fact l v hold
      · rw [rewriteInputs, calls_rewrite] at hcalls
        exact hcalls
      · intro src hsrc
        refine hsto (aliased (scanAt f definitions starts s.block s.index).aliases src) ?_
        rw [hsrc]
        rfl
    · obtain ⟨src, hsrc, heq⟩ := rewriteInputs_storeLocal hsto
      have hval := hs.lookup h hc hrow (v := src) (by simp [hsrc, inputs])
      rw [← heq]
      simp only [stepRow, hsrc, action] at hstep
      cases hstep
      simp only [State.store, update_self]
      exact hval.symm
    · have hload' := rewriteInputs_loadLocal hload
      have hout : row.instruction.output = some dst := by rw [hload']; rfl
      have hval : s'.locals l = s'.env dst.temp := by
        simp only [stepRow, hload', action] at hstep
        cases hstep
        simp [State.assign]
      have hown : s'.locals l = s'.env (f.ownValue dst.temp).temp := hval
      rcases hc.seen s.block s.index dst.temp hi (s.index + 1) (.inr rfl) with heq | heq
      · rw [heq]
        exact hown
      · rw [heq]
        by_cases hne : aliases dst.temp = f.ownValue dst.temp
        · rw [hne]
          exact hown
        · rw [hval]
          exact hfwd dst.temp hne (written_of_writes ⟨row, dst, hrow, hout, rfl⟩)
  · intro key v hv
    rcases hscan.constants key v hv with hold | ⟨c, hload, hone, rfl⟩
    · have hkn := fun trace (hpath : Path f s.block s.index trace) =>
        ((justified h hc hpath).constant key v hold).1
      rw [hkeep (hkn trace hpath).single (fun trace hpath => (hkn trace hpath).written)]
      exact hs.constant key v hold
    · simp only [stepRow, rewriteInputs_loadConst hload, action] at hstep
      cases hstep
      simp [State.assign]

/-- An edge keeps the facts true. -/
theorem Holds.goto (hs : Holds f definitions starts aliases x s)
    (hidx : s.index = (f.rowsAt s.block).length) {target : BlockId}
    (hedge : target ∈ f.successorsAt s.block) :
    Holds f definitions starts aliases x (s.goto target) := by
  obtain ⟨trace, hpath⟩ := hs.reached
  rw [hidx] at hpath
  have htgt := h.lt_of_path (hpath.jump hedge)
  refine ⟨⟨trace, hpath.jump hedge⟩, fun t hne hw => ?_, fun l v hv => ?_, fun key v hv => ?_⟩
  · refine hs.forwarded t hne ?_
    rw [hidx]
    exact hw.jump hedge
  · refine hs.fact l v ?_
    rw [hidx]
    exact (hc.facts target htgt l v hv).2 s.block hedge
  · have hnone : (scanAt f definitions starts target 0).constants = [] := by
      rw [scanAt_zero, hc.constants target htgt]
    rw [State.goto, hnone] at hv
    cases hv

/-! ## Chains of aliases -/

/-- A temporary that a path has written is not its own alias's. -/
theorem alias_temp_ne (hpath : Path f b i trace)
    (hw : WrittenIn f trace t) (hne : aliases t ≠ f.ownValue t) :
    (aliases t).temp ≠ t := by
  intro heq
  obtain ⟨p, hp, hwrs⟩ := hw
  obtain ⟨before, hbef, -⟩ := hpath.of_mem hp
  have hwrs' := hwrs
  obtain ⟨row, -, hrow, -⟩ := hwrs'
  obtain ⟨hone, dst, -, hsource⟩ := hc.source hrow hne hwrs
  refine not_written_of_writes ⟨before, hbef⟩ (fun q hq => hc.single t hone q p hq hwrs) ?_
  intro trace' hpath'
  have hkn := ((justified h hc hpath').source h hc hpath' hrow hsource).1.written
  rw [heq] at hkn
  exact hkn

/-- What the end of a chain of aliases has in common with its start. -/
structure Follows (f : MirFunction P) (trace : List Point) (v w : MirValue) : Prop where
  typed : Typed f w
  ty : w.ty = v.ty
  written : WrittenIn f trace w.temp

theorem follows_alias (hpath : Path f b i trace)
    (htyped : Typed f v) (hw : WrittenIn f trace v.temp) :
    Follows f trace v (aliases v.temp) := by
  have hown := ownValue_of_typed htyped
  by_cases hne : aliases v.temp = f.ownValue v.temp
  · rw [hne, hown]
    exact ⟨htyped, rfl, hw⟩
  · obtain ⟨hkn, hty⟩ := (justified h hc hpath).forwarded v.temp hw hne
    rw [hown] at hty
    exact ⟨hkn.typed, hty, hkn.written⟩

theorem follows_chain (hpath : Path f b i trace)
    {v w : MirValue} (htyped : Typed f v) (hw : WrittenIn f trace v.temp)
    (hchn : Chain aliases v.temp w) : Follows f trace v w := by
  induction hchn with
  | one => exact follows_alias h hc hpath htyped hw
  | more _ ih =>
    have hnext := follows_alias h hc hpath ih.typed ih.written
    exact ⟨hnext.typed, hnext.ty.trans ih.ty, hnext.written⟩

/-- All values of a chain are equal. -/
theorem Holds.chain (hs : Holds f definitions starts aliases x s) {v w : MirValue}
    (htyped : Typed f v) (hw : Written f v.temp s.block s.index) (hchn : Chain aliases v.temp w) :
    s.env w.temp = s.env v.temp := by
  have hstep : ∀ u : MirValue, Written f u.temp s.block s.index →
      s.env (aliases u.temp).temp = s.env u.temp := by
    intro u hu
    by_cases hne : aliases u.temp = f.ownValue u.temp
    · rw [hne]
      rfl
    · exact (hs.forwarded u.temp hne hu).symm
  induction hchn with
  | one => exact hstep v hw
  | @more u hchn ih =>
    rw [hstep u (fun _ hpath => (follows_chain h hc hpath htyped (hw _ hpath) hchn).written), ih]

end Dynamic

/-! ## The two functions in step -/

/-- The states of the function and of the simplified function correspond. -/
structure Forwarded {V W : Type} (f : MirFunction P) (definitions : TempId → Nat)
    (starts : BlockId → Scan) (aliases : TempId → MirValue) (x : External P V W)
    (s t : State V W) : Prop where
  holds : Holds f definitions starts aliases x s
  block : t.block = s.block
  index : t.index =
    (keptRows f definitions ((f.rowsAt s.block).take s.index) (starts s.block)).length
  locals : t.locals = s.locals
  world : t.world = s.world
  env : ∀ u, Written f u s.block s.index → aliases u = f.ownValue u → t.env u = s.env u

variable (definitions starts) in
theorem keptRows_take_succ
    (hrow : (f.rowsAt b)[i]? = some row) :
    keptRows f definitions ((f.rowsAt b).take (i + 1)) (starts b) =
      keptRows f definitions ((f.rowsAt b).take i) (starts b) ++
        (scanRow f definitions (scanAt f definitions starts b i) row).2.toList := by
  rw [take_add_one, hrow, Option.toList_some, keptRows_append]
  simp [keptRows, scanAt]

section Simulation

variable {V W : Type} {x : External P V W} {s t : State V W} {row : Row P}
variable {table : TempId → MirValue} {f' : MirFunction P}
variable (h : WellFormed checks f context) (hc : Certificate f definitions starts aliases)
include h hc

/-- The resolved alias of a value has, in the simplified function, the value's value. -/
theorem Forwarded.read (hst : Forwarded f definitions starts aliases x s t) {v w : MirValue}
    (htyped : Typed f v) (hw : Written f v.temp s.block s.index) (hchn : Chain aliases v.temp w)
    (hfin : Final aliases w) : w.ty = v.ty ∧ t.env w.temp = s.env v.temp := by
  obtain ⟨trace, hpath⟩ := hst.holds.reached
  have hfoll := fun trace hpath => follows_chain h hc hpath htyped (hw trace hpath) hchn
  have hown : aliases w.temp = f.ownValue w.temp := by
    by_contra hne
    exact alias_temp_ne h hc hpath (hfoll trace hpath).written hne hfin
  refine ⟨(hfoll trace hpath).ty, ?_⟩
  rw [hst.env w.temp (fun trace hpath => (hfoll trace hpath).written) hown]
  exact hst.holds.chain h hc htyped hw hchn

/-- A removed row has an alias for its destination, and is silent. -/
theorem Forwarded.removed (hst : Forwarded f definitions starts aliases x s t)
    (hrow : (f.rowsAt s.block)[s.index]? = some row)
    (hremd : (scanRow f definitions (scanAt f definitions starts s.block s.index) row).2 = none) :
    ∃ s', stepRow x row s = .next s' [] ∧ Forwarded f definitions starts aliases x s' t := by
  have hi : s.index < (f.rowsAt s.block).length := (List.getElem?_eq_some_iff.mp hrow).1
  obtain ⟨trace, hpath⟩ := hst.holds.reached
  have hok := h.row_ok hrow
  have hscan := scanRow_spec f definitions (scanAt f definitions starts s.block s.index) row
  rw [hremd, Option.isNone_none] at hscan
  obtain ⟨dst, value, hone, hsource, hset⟩ : ∃ dst value, definitions dst.temp = 1 ∧
      Source f definitions (scanAt f definitions starts s.block s.index) dst value
        (row.instruction.rewriteInputs
          (aliased (scanAt f definitions starts s.block s.index).aliases)) ∧
      (scanAt f definitions starts s.block (s.index + 1)).aliases dst.temp = value := by
    rcases hscan.aliases with ⟨-, hcst⟩ | ⟨dst, value, hone, hsource, heq, -⟩
    · -- a first constant is removed only if its destination already has an alias
      obtain ⟨dst, c, hload, hone, hne⟩ := hcst rfl
      have hout : row.instruction.output = some dst := by rw [rewriteInputs_loadConst hload]; rfl
      have hown := hc.own_at_definition hone ⟨row, dst, hrow, hout, rfl⟩
      rw [ownValue_of_typed (hok.output dst hout)] at hown
      exact absurd hown hne
    · refine ⟨dst, value, hone, hsource, ?_⟩
      rw [scanAt_succ hrow, heq, update_self]
  have hout : row.instruction.output = some dst := by
    simpa [rewriteInputs] using hsource.output
  have hwrs : Writes f dst.temp (s.block, s.index) := ⟨row, dst, hrow, hout, rfl⟩
  have hne : aliases dst.temp ≠ f.ownValue dst.temp := by
    intro heq
    -- otherwise the destination would be forwarded to itself, and be written before it is defined
    have hval : value = f.ownValue dst.temp := by
      rw [← hset]
      rcases hc.seen s.block s.index dst.temp hi (s.index + 1) (.inr rfl) with hseen | hseen
      · exact hseen
      · exact hseen.trans heq
    refine not_writes_of_known hc hst.holds.reached hone (fun trace' hpath' => ?_) hwrs
    have hkn := ((justified h hc hpath').source h hc hpath' hrow hsource).1.written
    rw [hval] at hkn
    exact hkn
  obtain ⟨result, hstep⟩ : ∃ result, stepRow x row s = .next (s.assign dst result) [] := by
    generalize hinstr : row.instruction.rewriteInputs
      (aliased (scanAt f definitions starts s.block s.index).aliases) = instruction at hsource
    cases hsource with
    | @constant c =>
      refine ⟨x.constant c, ?_⟩
      simp [stepRow, rewriteInputs_loadConst hinstr, action]
    | @readLocal l =>
      refine ⟨s.locals l, ?_⟩
      simp [stepRow, rewriteInputs_loadLocal hinstr, action]
    | copy =>
      obtain ⟨src, hsrc, -⟩ := rewriteInputs_move hinstr
      refine ⟨s.env src.temp, ?_⟩
      simp [stepRow, hsrc, action]
  refine ⟨_, hstep, hst.holds.next h hc hrow hstep, hst.block, ?_, hst.locals, hst.world, ?_⟩
  · have htake := keptRows_take_succ definitions starts hrow
    rw [hremd, Option.toList_none, List.append_nil] at htake
    exact hst.index.trans (congrArg List.length htake.symm)
  · intro u hw hown
    have hu : dst.temp ≠ u := fun heq => hne (heq ▸ hown)
    rw [State.assign_env_ne hu]
    refine hst.env u (hw.of_next hi ?_) hown
    rintro ⟨row', v, hrow', hv, hvu⟩
    cases hrow.symm.trans hrow'
    cases hout.symm.trans hv
    exact hu hvu

variable (hs : Simplified f definitions starts aliases table f')
include hs

/-- The values that a kept row reads. -/
theorem Forwarded.inputs (hst : Forwarded f definitions starts aliases x s t)
    (hrow : (f.rowsAt s.block)[s.index]? = some row)
    (hv : v ∈ row.instruction.inputs) :
    (aliased table (aliased (scanAt f definitions starts s.block s.index).aliases v)).ty = v.ty ∧
      t.env (aliased table
        (aliased (scanAt f definitions starts s.block s.index).aliases v)).temp = s.env v.temp := by
  obtain ⟨trace, hpath⟩ := hst.holds.reached
  have hi : s.index < (f.rowsAt s.block).length := (List.getElem?_eq_some_iff.mp hrow).1
  have htyped := (h.row_ok hrow).inputs v hv
  have hw : Written f v.temp s.block s.index := fun _ hpath' => h.input_written hpath' hrow hv
  unfold aliased
  rcases (justified h hc hpath).lookup hc hi htyped (hw trace hpath) with heq | ⟨-, heq, hkn, -⟩
  · rw [heq]
    exact hst.read h hc htyped hw (hs.chain v.temp) (hs.final _ (typed_lt htyped))
  · rw [heq]
    exact hst.read h hc htyped hw (Chain.one.trans (hs.chain _)) (hs.final _ (typed_lt hkn.typed))

/-- A kept row does the same in both functions. -/
theorem Forwarded.kept (hst : Forwarded f definitions starts aliases x s t)
    (hrow : (f.rowsAt s.block)[s.index]? = some row) {kept : Row P}
    (hkept : (scanRow f definitions (scanAt f definitions starts s.block s.index) row).2 =
      some kept) :
    (∃ outcome, stepRow x row s = .halt outcome ∧ stepRow x (kept.rewrite table) t = .halt outcome) ∨
    ∃ s' t' events, stepRow x row s = .next s' events ∧
      stepRow x (kept.rewrite table) t = .next t' events ∧
      Forwarded f definitions starts aliases x s' t' := by
  have hi : s.index < (f.rowsAt s.block).length := (List.getElem?_eq_some_iff.mp hrow).1
  obtain rfl := scanRow_kept f definitions hkept
  have hrewr : ((row.rewrite (scanAt f definitions starts s.block s.index).aliases).rewrite
      table).instruction = row.instruction.rewrite (aliased table ∘
        aliased (scanAt f definitions starts s.block s.index).aliases) id := by
    unfold Row.rewrite rewriteInputs
    rw [rewrite_rewrite]
    rfl
  have hspan : ((row.rewrite (scanAt f definitions starts s.block s.index).aliases).rewrite
      table).span = row.span := rfl
  rcases stepRow_lockstep (x := x) (s := s) (t := t) hspan hrewr
    (fun v hv => hst.inputs h hc hs hrow hv) (fun _ _ => rfl) hst.locals hst.world with
    hhalt | ⟨s', t', events, hstep, hstep', hlock⟩
  · exact .inl hhalt
  · refine .inr ⟨s', t', events, hstep, hstep', hst.holds.next h hc hrow hstep, ?_, ?_,
      hlock.locals, hlock.world, ?_⟩
    · rw [hlock.block, hst.block, hlock.source.block]
    · have htake := keptRows_take_succ definitions starts hrow
      rw [hlock.index, hst.index, hlock.source.index, hlock.source.block, htake, hkept]
      simp
    · rw [hlock.source.block, hlock.source.index]
      intro u hw hown
      by_cases hwrs : Writes f u (s.block, s.index)
      · obtain ⟨row', dst, hrow', hdst, rfl⟩ := hwrs
        cases hrow.symm.trans hrow'
        exact hlock.written dst hdst
      · have hnot : ∀ dst ∈ row.instruction.output, dst.temp ≠ u :=
          fun dst hdst heq => hwrs ⟨row, dst, hrow, hdst, heq⟩
        rw [hlock.env u hnot, hlock.source.env u hnot]
        exact hst.env u (hw.of_next hi hwrs) hown

/-- The simplified function simulates the function. -/
theorem simulation : Machine.Simulation (step x f) (step x f')
    (Forwarded f definitions starts aliases x) (fun s => (f.rowsAt s.block).length - s.index) := by
  refine ⟨fun s t hst => ?_⟩
  obtain ⟨trace, hpath⟩ := hst.holds.reached
  have hblk := h.lt_of_path hpath
  have hrows' := hs.rows s.block hblk
  cases hrow : (f.rowsAt s.block)[s.index]? with
  | some row =>
    have hi : s.index < (f.rowsAt s.block).length := (List.getElem?_eq_some_iff.mp hrow).1
    have hstep : step x f s = stepRow x row s := by simp [step, hrow]
    cases hkept : (scanRow f definitions (scanAt f definitions starts s.block s.index) row).2 with
    | none =>
      obtain ⟨s', hs', hst'⟩ := hst.removed h hc hrow hkept
      refine .inr ⟨0, s', [], ?_, .inl ⟨rfl, hst', ?_⟩⟩
      · simp [Machine.run, hstep, hs']
      · have hfr := stepRow_framed hs'
        rw [hfr.block, hfr.index]
        omega
    | some kept =>
      have htgt : step x f' t = stepRow x (kept.rewrite table) t := by
        have hspl := keptRows_append f definitions ((f.rowsAt s.block).take (s.index + 1))
          ((f.rowsAt s.block).drop (s.index + 1)) (starts s.block)
        rw [List.take_append_drop, keptRows_take_succ definitions starts hrow, hkept] at hspl
        unfold step
        rw [hst.block, hrows', hspl, hst.index]
        simp
      rcases hst.kept h hc hs hrow hkept with ⟨outcome, hs', ht'⟩ | ⟨s', t', events, hs', ht', hst'⟩
      · exact .inl ⟨outcome, hstep.trans hs', htgt.trans ht'⟩
      · refine .inr ⟨0, s', events, ?_, .inr ⟨t', htgt.trans ht', hst'⟩⟩
        simp [Machine.run, hstep, hs']
  | none =>
    have hidx : s.index = (f.rowsAt s.block).length :=
      Nat.le_antisymm hpath.index_le (List.getElem?_eq_none_iff.mp hrow)
    have hstep : step x f s = stepTerminator x (f.terminatorAt s.block)
        (f.terminatorSpanAt s.block) s := by
      simp [step, hrow]
    have htgt : step x f' t = stepTerminator x ((f.terminatorAt s.block).map
        (·.rewriteInput (aliased table))) (f.terminatorSpanAt s.block) t := by
      unfold step
      rw [hst.block, hrows', hst.index, hidx, List.take_length, hs.terminator, hs.terminatorSpan]
      simp
    rw [hidx] at hpath
    have hread : ∀ v, (f.terminatorAt s.block).bind (·.input) = some v →
        t.env (aliased table v).temp = s.env v.temp := by
      intro v hv
      obtain ⟨terminator, hterm, hv⟩ := Option.bind_eq_some_iff.mp hv
      have htyped := (h.terminator_ok hterm).input v hv
      refine (hst.read h hc htyped (fun trace' hpath' => ?_) (hs.chain v.temp)
        (hs.final _ (typed_lt htyped))).2
      rw [hidx] at hpath'
      exact h.terminator_written hpath' hterm hv
    rcases stepTerminator_lockstep (x := x) (f.terminatorSpanAt s.block) hst.world hread with
      ⟨outcome, hs', ht'⟩ | ⟨target, hedge, hs', ht'⟩
    · exact .inl ⟨outcome, hstep.trans hs', htgt.trans ht'⟩
    · refine .inr ⟨0, s.goto target, [], ?_, .inr ⟨t.goto target, htgt.trans ht', ?_⟩⟩
      · simp [Machine.run, hstep, hs']
      · refine ⟨hst.holds.goto h hc hidx hedge, rfl, by simp [State.goto, keptRows], hst.locals,
          hst.world, fun u hw hown => ?_⟩
        refine hst.env u ?_ hown
        rw [hidx]
        exact hw.jump hedge

end Simulation

/-! ## The pass -/

/-- Every run of the pass on a well-formed function preserves its execution. -/
theorem simplifyFunction_same (h : WellFormed checks f context) (statistics : PassStatistics) :
    Ensures (simplifyFunction f statistics) (fun out => SameExecution f out.1) := by
  refine (simplifyFunction_spec f (aligned_of_blockOk h.blocks) h.entry statistics).mono ?_
  rintro out ⟨definitions, starts, aliases, table, hc, hs⟩ V W x env locals world
  refine (simulation h hc hs).same ⟨⟨⟨[], .entry⟩, fun t _ hw => ?_, fun l v hv => ?_,
    fun key v hv => ?_⟩, hs.entry, rfl, rfl, rfl, fun _ _ _ => rfl⟩
  · obtain ⟨p, hp, -⟩ := hw [] .entry
    cases hp
  · exact absurd rfl (hc.facts f.entry h.entry l v hv).1
  · have hnone : (scanAt f definitions starts f.entry 0).constants = [] := by
      rw [scanAt_zero, hc.constants f.entry h.entry]
    rw [start, hnone] at hv
    cases hv

/-- Each accepted function of a module behaves as before. -/
theorem simplify_same (checks : Checks P) (functions : List (MirFunction P)) :
    ∀ statistics, Ensures (simplify functions statistics) (fun out => ∀ (k : Nat) (f : MirFunction P),
      functions[k]? = some f → (∃ context, Accepted checks f context) →
        ∃ f', out.1[k]? = some f' ∧ SameExecution f f') := by
  induction functions with
  | nil => exact fun statistics => .pure (by simp)
  | cons f functions ih =>
    intro statistics
    have hfst : Ensures (simplifyFunction f statistics) (fun out =>
        (∃ context, Accepted checks f context) → SameExecution f out.1) := by
      by_cases hacc : ∃ context, Accepted checks f context
      · obtain ⟨context, hacc⟩ := hacc
        exact (simplifyFunction_same hacc.wellFormed statistics).mono (fun _ h _ => h)
      · exact Ensures.any.mono (fun _ _ h => absurd h hacc)
    refine .bind hfst (fun first hfst => ?_)
    refine .bind (ih first.2) (fun rest hrest => .pure (fun k g hk hacc => ?_))
    rcases k with _ | k
    · obtain rfl : f = g := by simpa using hk
      exact ⟨first.1, rfl, hfst hacc⟩
    · exact hrest k g (by simpa using hk) hacc

/-- The copy pass preserves the execution of every accepted function: the same effects in the same
order, with the same values, the same stores to locals, and the same end. -/
theorem simplify_preserves_execution (checks : Checks P) (functions simplified : List (MirFunction P))
    (statistics statistics' : PassStatistics) (work work' : Work)
    (hrun : (simplify functions statistics).run work = .ok ((simplified, statistics'), work'))
    (k : Nat) (f : MirFunction P) (hk : functions[k]? = some f)
    (haccepted : ∃ context, Accepted checks f context) :
    ∃ f', simplified[k]? = some f' ∧ SameExecution f f' :=
  simplify_same checks functions statistics work _ work' hrun k f hk haccepted

end Sound

/-! ## A forwarded local -/

/-- `let l = 5; l + l`, before forwarding. -/
def doubledLocal : MirFunction Unit where
  semantic := ⟨none, [], none, [], []⟩
  params := []
  returnType := .i32
  locals := [⟨.i32⟩]
  temps := [⟨.i32⟩, ⟨.i32⟩, ⟨.i32⟩]
  blocks := [{
    instructions := [.loadConst ⟨0, .i32⟩ (.i32 5), .storeLocal 0 ⟨0, .i32⟩, .loadLocal ⟨1, .i32⟩ 0,
      .binary ⟨2, .i32⟩ .add ⟨1, .i32⟩ ⟨1, .i32⟩]
    instructionSpans := [⟨0, 1⟩, ⟨0, 1⟩, ⟨2, 3⟩, ⟨2, 5⟩]
    instructionScopes := [0, 0, 0, 0]
    terminator := some (.ret (some ⟨2, .i32⟩))
    terminatorSpan := some ⟨2, 5⟩
    terminatorScope := some 0 }]
  entry := 0
  effects := { readsLocal := true, writesLocal := true, mayTrap := true }
  debug := ⟨⟨0, 5⟩, [], [], [⟨none, none⟩]⟩

theorem doubledLocal_accepted : Accepted openChecks doubledLocal ⟨false, none, none, none⟩ := by
  have hok : ((verifyFunction openChecks doubledLocal ⟨false, none, none, none⟩).run
      ⟨0, 0⟩).isOk = true := by
    decide +kernel
  cases hrun : (verifyFunction openChecks doubledLocal ⟨false, none, none, none⟩).run ⟨0, 0⟩ with
  | error e =>
    rw [hrun] at hok
    cases hok
  | ok out => exact ⟨_, out, hrun⟩

theorem simplify_preserves_execution_doubledLocal :
    ∃ f', SameExecution doubledLocal f' ∧ (f'.rowsAt 0).length = 3 := by
  have hlen : ((simplify [doubledLocal] {}).run ⟨0, 100, false⟩).toOption.map
      (fun out => out.1.1.map fun f => (f.rowsAt 0).length) = some [3] := by
    decide +kernel
  cases hrun : (simplify [doubledLocal] {}).run ⟨0, 100, false⟩ with
  | error e =>
    rw [hrun] at hlen
    cases hlen
  | ok out =>
    obtain ⟨⟨simplified, statistics⟩, work⟩ := out
    obtain ⟨f', hf', hsame⟩ := simplify_preserves_execution openChecks [doubledLocal] simplified {}
      statistics _ work hrun 0 doubledLocal rfl ⟨_, doubledLocal_accepted⟩
    refine ⟨f', hsame, ?_⟩
    rw [hrun] at hlen
    have hrows := congrArg (·[0]?) (Option.some.inj hlen)
    simpa [hf'] using hrows

end Kagari.Mir
