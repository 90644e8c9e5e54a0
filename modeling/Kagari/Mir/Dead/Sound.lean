import Kagari.Mir.Dead.Rows
import Kagari.Mir.Dead.Typed

/-!
# Deleting dead operations

The rows that the sweep marks are those that nothing needs (`Needed`). Without them a function runs as
before (`faithful_iff`), exactly when none of them compares generic operands: that comparison may trap,
but counts as an operation without effects.
-/

namespace Kagari.Mir.Dead

open Lib Kagari.Runtime Context List

/-! ## Needed rows -/

variable {index : Nat} {t : TempId} {f : MirFunction Unit}

section Needed

variable {P : Type}

/-- No row after `first`, and before `last`, writes the temporary. -/
def Unwritten (code : List (Instruction P)) (t : TempId) (first last : Nat) : Prop :=
  ∀ k i, first < k → k < last → code[k]? = some i → ∀ dst ∈ i.output, dst.temp ≠ t

/-- A row with effects, or whose result a needed row or the end of the block uses. -/
inductive Needed (code : List (Instruction P)) (live : TempId → Prop) : Nat → Prop
  | effect {index : Nat} {i : Instruction P} : code[index]? = some i →
      (i.output = none ∨ i.effects ≠ {}) → Needed code live index
  | read {index user : Nat} {i j : Instruction P} {dst v : MirValue} : code[index]? = some i →
      i.output = some dst → index < user → code[user]? = some j → v ∈ j.inputs → v.temp = dst.temp →
      Unwritten code dst.temp index user → Needed code live user → Needed code live index
  | live {index : Nat} {i : Instruction P} {dst : MirValue} : code[index]? = some i →
      i.output = some dst → live dst.temp → Unwritten code dst.temp index code.length →
      Needed code live index

variable {live : TempId → Bool}

variable {i : Instruction P} (code : List (Instruction P))

theorem isDead_iff :
    isDead i live = true ↔ ∃ dst, i.output = some dst ∧ live dst.temp = false ∧ i.effects = {} := by
  unfold isDead
  rw [Option.any_eq_true]
  simp

theorem liveAbove_iff :
    liveAbove i live t = true ↔
      (∃ v ∈ i.inputs, v.temp = t) ∨ (live t = true ∧ ∀ dst ∈ i.output, dst.temp ≠ t) := by
  have hfold : ∀ (temps : List TempId) (table : TempId → Bool),
      temps.foldl (fun live t => Function.update live t true) table t = true ↔
        t ∈ temps ∨ table t = true := by
    intro temps
    induction temps with
    | nil => simp
    | cons first temps ih =>
      intro table
      rw [foldl_cons, ih, mem_cons]
      by_cases heq : t = first
      · simp [heq]
      · simp [heq]
  unfold liveAbove
  rw [hfold, mem_map]
  refine or_congr Iff.rfl ?_
  cases hout : i.output with
  | none => simp
  | some dst =>
    rw [Option.elim_some]
    by_cases heq : t = dst.temp
    · simp [heq]
    · rw [Function.update_of_ne heq]
      simp [Ne.symm heq]

/-- What is live before some code: a row that stays reads it, or it is live at the end. -/
theorem liveAt_iff :
    liveAt code live t = true ↔
      (∃ user j, code[user]? = some j ∧ deadAt code live user = false ∧ (∃ v ∈ j.inputs, v.temp = t) ∧
        ∀ k i, k < user → code[k]? = some i → ∀ dst ∈ i.output, dst.temp ≠ t) ∨
      (live t = true ∧ ∀ k i, k < code.length → code[k]? = some i → ∀ dst ∈ i.output, dst.temp ≠ t) := by
  induction code with
  | nil => simp [liveAt]
  | cons first code ih =>
    have hdeadSucc : ∀ user, deadAt (first :: code) live (user + 1) = deadAt code live user :=
      fun user => rfl
    have hdeadZero : deadAt (first :: code) live 0 = isDead first (liveAt code live) := rfl
    -- what the rest needs, the whole needs, unless the first row writes it
    have hshf : ∀ (_ : ∀ dst ∈ first.output, dst.temp ≠ t), liveAt code live t = true →
        (∃ user j, (first :: code)[user]? = some j ∧ deadAt (first :: code) live user = false ∧
          (∃ v ∈ j.inputs, v.temp = t) ∧
          ∀ k i, k < user → (first :: code)[k]? = some i → ∀ dst ∈ i.output, dst.temp ≠ t) ∨
        (live t = true ∧ ∀ k i, k < (first :: code).length → (first :: code)[k]? = some i →
          ∀ dst ∈ i.output, dst.temp ≠ t) := by
      intro hfst hlive
      rcases ih.mp hlive with ⟨user, j, hj, hdead, hread, hunw⟩ | ⟨hend, hunw⟩
      · refine .inl ⟨user + 1, j, hj, hdead, hread, fun k i hk hi => ?_⟩
        cases k with
        | zero => exact Option.some.inj hi ▸ hfst
        | succ k => exact hunw k i (Nat.lt_of_succ_lt_succ hk) hi
      · refine .inr ⟨hend, fun k i hk hi => ?_⟩
        cases k with
        | zero => exact Option.some.inj hi ▸ hfst
        | succ k => exact hunw k i (Nat.lt_of_succ_lt_succ hk) hi
    have hunshift : ((∃ user j, code[user]? = some j ∧ deadAt code live user = false ∧
          (∃ v ∈ j.inputs, v.temp = t) ∧
          ∀ k i, k < user + 1 → (first :: code)[k]? = some i → ∀ dst ∈ i.output, dst.temp ≠ t) ∨
        (live t = true ∧ ∀ k i, k < (first :: code).length → (first :: code)[k]? = some i →
          ∀ dst ∈ i.output, dst.temp ≠ t)) →
        liveAt code live t = true ∧ ∀ dst ∈ first.output, dst.temp ≠ t := by
      rintro (⟨user, j, hj, hdead, hread, hunw⟩ | ⟨hend, hunw⟩)
      · refine ⟨ih.mpr (.inl ⟨user, j, hj, hdead, hread, fun k i hk hi => ?_⟩), ?_⟩
        · exact hunw (k + 1) i (Nat.succ_lt_succ hk) hi
        · exact hunw 0 first (Nat.succ_pos _) rfl
      · refine ⟨ih.mpr (.inr ⟨hend, fun k i hk hi => ?_⟩), ?_⟩
        · exact hunw (k + 1) i (Nat.succ_lt_succ hk) hi
        · exact hunw 0 first (Nat.succ_pos _) rfl
    unfold liveAt
    cases hdead : isDead first (liveAt code live) with
    | true =>
      rw [if_pos rfl]
      obtain ⟨dst, hout, hnotLive, -⟩ := isDead_iff.mp hdead
      constructor
      · intro hlive
        refine hshf (fun dst' hdst' heq => ?_) hlive
        cases hout.symm.trans hdst'
        rw [heq, hlive] at hnotLive
        cases hnotLive
      · intro h
        refine (hunshift (h.imp_left ?_)).1
        rintro ⟨user, j, hj, hstays, hread, hunw⟩
        cases user with
        | zero =>
          rw [hdeadZero, hdead] at hstays
          cases hstays
        | succ user => exact ⟨user, j, hj, hstays, hread, hunw⟩
    | false =>
      rw [if_neg (by simp), liveAbove_iff]
      constructor
      · rintro (hread | ⟨hlive, hfst⟩)
        · exact .inl ⟨0, first, rfl, hdeadZero.trans hdead, hread, fun k i hk => absurd hk (Nat.not_lt_zero k)⟩
        · exact hshf hfst hlive
      · rintro (⟨user, j, hj, hstays, hread, hunw⟩ | hend)
        · cases user with
          | zero => exact .inl (Option.some.inj hj ▸ hread)
          | succ user => exact .inr (hunshift (.inl ⟨user, j, hj, hstays, hread, hunw⟩))
        · exact .inr (hunshift (.inr hend))

theorem deadAt_drop (live : TempId → Bool) (first index : Nat) :
    deadAt (code.drop first) live index = deadAt code live (first + index) := by
  unfold deadAt
  rw [getElem?_drop, drop_drop, Nat.add_assoc]

/-- What is live after a row. -/
theorem liveAfter_iff {code : List (Instruction P)} :
    liveAt (code.drop (index + 1)) live t = true ↔
      (∃ user j v, index < user ∧ code[user]? = some j ∧ deadAt code live user = false ∧
        v ∈ j.inputs ∧ v.temp = t ∧ Unwritten code t index user) ∨
      (live t = true ∧ Unwritten code t index code.length) := by
  have hunw : ∀ last, index < last →
      ((∀ k i, k < last - (index + 1) → (code.drop (index + 1))[k]? = some i →
        ∀ dst ∈ i.output, dst.temp ≠ t) ↔ Unwritten code t index last) := by
    intro last hlast
    constructor
    · intro h k i hk hklast hi
      refine h (k - (index + 1)) i (by omega) ?_
      rw [getElem?_drop, show index + 1 + (k - (index + 1)) = k by omega, hi]
    · intro h k i hk hi
      rw [getElem?_drop] at hi
      exact h (index + 1 + k) i (by omega) (by omega) hi
  rw [liveAt_iff]
  refine or_congr ?_ (and_congr_right fun _ => ?_)
  · constructor
    · rintro ⟨user, j, hj, hdead, ⟨v, hv, heq⟩, h⟩
      rw [getElem?_drop] at hj
      rw [deadAt_drop] at hdead
      refine ⟨index + 1 + user, j, v, by omega, hj, hdead, hv, heq, ?_⟩
      refine (hunw _ (by omega)).mp ?_
      rwa [Nat.add_sub_cancel_left]
    · rintro ⟨user, j, v, hlt, hj, hdead, hv, heq, h⟩
      have huser : index + 1 + (user - (index + 1)) = user := by omega
      refine ⟨user - (index + 1), j, ?_, ?_, ⟨v, hv, heq⟩, (hunw user hlt).mpr h⟩
      · rw [getElem?_drop, huser, hj]
      · rw [deadAt_drop, huser, hdead]
  · by_cases hlt : index < code.length
    · rw [← hunw _ hlt, length_drop]
    · refine ⟨fun _ k i hk hklast => absurd (hk.trans hklast) hlt, fun _ k i hk => ?_⟩
      rw [length_drop] at hk
      omega

/-- The sweep leaves the rows that are needed. -/
theorem needed_iff {code : List (Instruction P)}
    (hidx : index < code.length) :
    Needed code (fun t => live t = true) index ↔ deadAt code live index = false := by
  have hdead : ∀ {k i}, code[k]? = some i →
      (deadAt code live k = false ↔ i.output = none ∨ i.effects ≠ {} ∨
        ∃ dst, i.output = some dst ∧ liveAt (code.drop (k + 1)) live dst.temp = true) := by
    intro k i hi
    unfold deadAt
    rw [hi, Option.any_some, ← Bool.not_eq_true, isDead_iff]
    cases i.output with
    | none => simp
    | some dst =>
      simp only [Option.some.injEq, exists_eq_left', reduceCtorEq, false_or]
      rw [not_and_or, Bool.not_eq_false, or_comm]
  constructor
  · intro h
    induction h with
    | effect hi heffect => exact (hdead hi).mpr (heffect.imp_right Or.inl)
    | @read index user i j dst v hi hout hlt hj hv heq hunw _ ih =>
      have huser := ih (List.getElem?_eq_some_iff.mp hj).1
      refine (hdead hi).mpr (.inr (.inr ⟨dst, hout, liveAfter_iff.mpr (.inl ?_)⟩))
      exact ⟨user, j, v, hlt, hj, huser, hv, heq, hunw⟩
    | @live index i dst hi hout hlive hunw =>
      exact (hdead hi).mpr (.inr (.inr ⟨dst, hout, liveAfter_iff.mpr (.inr ⟨hlive, hunw⟩)⟩))
  · -- from the end of the block: the rows that use a row come after it
    induction hn : code.length - index using Nat.strongRecOn generalizing index with
    | ind n ih =>
      intro hstays
      have hi := List.getElem?_eq_getElem hidx
      rcases (hdead hi).mp hstays with hout | heffs | ⟨dst, hout, hlive⟩
      · exact .effect hi (.inl hout)
      · exact .effect hi (.inr heffs)
      · rcases liveAfter_iff.mp hlive with ⟨user, j, v, hlt, hj, huser, hv, heq, hunw⟩ |
          ⟨hend, hunw⟩
        · have hlen := (List.getElem?_eq_some_iff.mp hj).1
          exact .read hi hout hlt hj hv heq hunw (ih _ (by omega) hlen rfl huser)
        · exact .live hi hout hend hunw

end Needed

/-! ## Rows that stay -/

section Keep

variable {α : Type} {dead : Nat → Bool} {xs : List α} {index : Nat}

theorem keep_take_append (dead : Nat → Bool) (xs : List α) (index : Nat) :
    ∃ rest, keep dead xs = keep dead (xs.take index) ++ rest := by
  unfold keep
  conv => enter [1, rest, 1]; rw [← take_append_drop index xs]
  rw [zipIdx_append, filter_append, map_append]
  exact ⟨_, rfl⟩

theorem getElem?_keep (hidx : index < xs.length) (hstays : dead index = false) :
    (keep dead xs)[(keep dead (xs.take index)).length]? = xs[index]? := by
  obtain ⟨rest, hrest⟩ := keep_take_append dead xs (index + 1)
  rw [hrest, keep_take_succ hidx, if_neg (by simp [hstays]), append_assoc,
    getElem?_append_right le_rfl, Nat.sub_self, getElem?_eq_getElem hidx]
  rfl

theorem getElem?_keep_none (h : xs.length ≤ index) :
    (keep dead xs)[(keep dead (xs.take index)).length]? = none := by
  rw [take_of_length_le h, getElem?_eq_none_iff]

end Keep

section Cleaned

variable {P : Type} (sealedFunction : Sealed P)

theorem blocks_cleaned (b : BlockId) :
    (cleaned sealedFunction).blocks[b]? =
      sealedFunction.function.blocks[b]?.map (clean (deadIn sealedFunction b)) := by
  unfold cleaned
  rw [getElem?_mapIdx]

theorem rowsAt_cleaned (b : BlockId) :
    (cleaned sealedFunction).rowsAt b =
      keep (deadIn sealedFunction b) (sealedFunction.function.rowsAt b) := by
  unfold MirFunction.rowsAt
  rw [blocks_cleaned]
  cases sealedFunction.function.blocks[b]? with
  | none => rfl
  | some block => exact BasicBlock.rows_withRows block _

theorem terminatorAt_cleaned (b : BlockId) :
    (cleaned sealedFunction).terminatorAt b = sealedFunction.function.terminatorAt b := by
  unfold MirFunction.terminatorAt
  rw [blocks_cleaned]
  cases sealedFunction.function.blocks[b]? <;> rfl

theorem terminatorSpanAt_cleaned (b : BlockId) :
    (cleaned sealedFunction).terminatorSpanAt b = sealedFunction.function.terminatorSpanAt b := by
  unfold MirFunction.terminatorSpanAt
  rw [blocks_cleaned]
  cases sealedFunction.function.blocks[b]? <;> rfl

/-- Where a row of the function stands after the deletion. -/
def keptIndex (b : BlockId) (index : Nat) : Nat :=
  (keep (deadIn sealedFunction b) ((sealedFunction.function.rowsAt b).take index)).length

/-- What is live before a row, against the rows that stay. -/
def liveHere (b : BlockId) (index : Nat) : TempId → Bool :=
  liveAt ((instructionsAt sealedFunction.function b).drop index) (liveTemps sealedFunction b)

end Cleaned

/-! ## Liveness at a row -/

variable {live : TempId → Bool} {trace : List BlockId}

section Live

variable {P : Type} {sealedFunction : Sealed P} {checks : Checks P} {context : Context}
  {b : BlockId} {index : Nat} {row : Row P} {t : TempId}

theorem code_of_row (halgn : sealedFunction.function.Aligned)
    (hrow : (sealedFunction.function.rowsAt b)[index]? = some row) :
    (instructionsAt sealedFunction.function b)[index]? = some row.instruction := by
  rw [instructionsAt_eq halgn, getElem?_map, hrow]
  rfl

theorem liveHere_eq (halgn : sealedFunction.function.Aligned)
    (hrow : (sealedFunction.function.rowsAt b)[index]? = some row) :
    liveHere sealedFunction b index =
      if isDead row.instruction (liveHere sealedFunction b (index + 1)) then
        liveHere sealedFunction b (index + 1)
      else liveAbove row.instruction (liveHere sealedFunction b (index + 1)) := by
  obtain ⟨hlt, heq⟩ := List.getElem?_eq_some_iff.mp (code_of_row halgn hrow)
  unfold liveHere
  conv => lhs; rw [List.drop_eq_getElem_cons hlt]
  rw [heq]
  rfl

theorem deadIn_eq (hrchb : reachable sealedFunction b = true)
    (halgn : sealedFunction.function.Aligned)
    (hrow : (sealedFunction.function.rowsAt b)[index]? = some row) :
    deadIn sealedFunction b index =
      isDead row.instruction (liveHere sealedFunction b (index + 1)) := by
  unfold deadIn deadAt
  rw [hrchb, code_of_row halgn hrow]
  rfl

theorem liveHere_end (halgn : sealedFunction.function.Aligned)
    (hidx : (sealedFunction.function.rowsAt b).length ≤ index) :
    liveHere sealedFunction b index = liveTemps sealedFunction b := by
  unfold liveHere
  rw [drop_eq_nil_of_le]
  · rfl
  · rw [instructionsAt_eq halgn, length_map]
    exact hidx

/-- What the sweep counts as live is live. -/
theorem liveIn_of_liveAt (code : List (Instruction P)) {t : TempId}
    (h : liveAt code live t = true) : liveIn code (fun t => live t = true) t := by
  induction code generalizing t with
  | nil => exact h
  | cons i code ih =>
    unfold liveAt at h
    split at h
    · rename_i hdead
      obtain ⟨dst, hout, hnotLive, -⟩ := isDead_iff.mp hdead
      refine .inr ⟨ih h, fun dst' hdst' heq => ?_⟩
      cases hout.symm.trans hdst'
      rw [heq, h] at hnotLive
      cases hnotLive
    · exact (liveAbove_iff.mp h).imp_right (And.imp_left ih)

theorem liveIn_mono {after after' : TempId → Prop} (h : ∀ t, after t → after' t)
    (code : List (Instruction P)) {t : TempId} (ht : liveIn code after t) : liveIn code after' t := by
  induction code generalizing t with
  | nil => exact h t ht
  | cons i code ih => exact ht.imp_right fun ⟨hlive, hkept⟩ => ⟨ih hlive, hkept⟩

theorem reachable_of_walk (hlive : LiveSound sealedFunction.function sealedFunction.analysis)
    (hrng : sealedFunction.function.InRange)
    (hwalk : sealedFunction.function.Walk b trace) : reachable sealedFunction b = true := by
  obtain ⟨record, hrec, hreach⟩ := hlive.reachable b (hrng.walk hwalk)
  unfold reachable
  rw [hrec]
  exact hreach.mpr ⟨trace, hwalk⟩

theorem liveHere_lt (hwell : WellFormed checks sealedFunction.function context)
    (h : liveHere sealedFunction b index t = true) : t < sealedFunction.function.temps.length := by
  have halgn := aligned_of_blockOk hwell.blocks
  rcases (liveAt_iff _).mp h with ⟨user, j, hj, -, ⟨v, hv, rfl⟩, -⟩ | ⟨hend, -⟩
  · rw [getElem?_drop, instructionsAt_eq halgn, getElem?_map] at hj
    obtain ⟨row, hrow, rfl⟩ := Option.map_eq_some_iff.mp hj
    exact typed_lt ((hwell.row_ok hrow).inputs v hv)
  · unfold liveTemps at hend
    rw [Bool.and_eq_true, decide_eq_true_eq] at hend
    exact hend.1

/-- What is live at the start of a successor is live before the terminator. -/
theorem liveHere_jump (hwell : WellFormed checks sealedFunction.function context)
    (hlive : LiveSound sealedFunction.function sealedFunction.analysis)
    (hwalk : sealedFunction.function.Walk b trace) {target : BlockId}
    (hedge : sealedFunction.function.Edge b target) (h : liveHere sealedFunction target 0 t = true) :
    liveTemps sealedFunction b t = true := by
  have hlt := liveHere_lt hwell h
  obtain ⟨entries, hcovs⟩ := hlive.covers
  obtain ⟨-, hsuccs, -⟩ := hcovs b ⟨trace, hwalk⟩
  obtain ⟨-, -, hent⟩ := hcovs target ⟨_, hwalk.step hedge⟩
  have hin := liveIn_of_liveAt _ h
  rw [drop_zero] at hin
  have hmono := liveIn_mono (fun t ht => by
    unfold liveTemps at ht
    rw [Bool.and_eq_true] at ht
    exact ht.2) _ hin
  unfold liveTemps
  rw [Bool.and_eq_true, decide_eq_true_eq]
  exact ⟨hlt, hsuccs target hedge t hlt (hent t hlt hmono)⟩

theorem liveTemps_input (hwell : WellFormed checks sealedFunction.function context)
    (hlive : LiveSound sealedFunction.function sealedFunction.analysis)
    (hwalk : sealedFunction.function.Walk b trace) {v : MirValue}
    (hv : (sealedFunction.function.terminatorAt b).bind (·.input) = some v) :
    liveTemps sealedFunction b v.temp = true := by
  obtain ⟨entries, hcovs⟩ := hlive.covers
  obtain ⟨terminator, ht, hinp⟩ := Option.bind_eq_some_iff.mp hv
  unfold liveTemps
  rw [Bool.and_eq_true, decide_eq_true_eq]
  exact ⟨typed_lt ((hwell.terminator_ok ht).input v hinp), (hcovs b ⟨trace, hwalk⟩).1 v hv⟩

end Live

/-! ## The simulation -/

section Simulation

variable {P H W : Type} {w : World P H W} {sealedFunction : Sealed P} {checks : Checks P}
  {context : Context}

/-- A row in states that agree on what it reads. -/
theorem interpretRow_agree {row : Row P} {s t : State (Value H) W}
    (hinps : ∀ v ∈ row.instruction.inputs, t.env v.temp = s.env v.temp)
    (hlocs : t.locals = s.locals) (hwld : t.world = s.world) :
    (∃ outcome, interpretRow w row s = .halt outcome ∧ interpretRow w row t = .halt outcome) ∨
    ∃ s' t' events, interpretRow w row s = .next s' events ∧ interpretRow w row t = .next t' events ∧
      t'.locals = s'.locals ∧ t'.world = s'.world ∧
      ∀ dst ∈ row.instruction.output, t'.env dst.temp = s'.env dst.temp := by
  have hread : t.read row.instruction.inputs = s.read row.instruction.inputs :=
    map_congr_left hinps
  unfold interpretRow
  rw [hread, hwld]
  cases hcompute : w.compute row.instruction (s.read row.instruction.inputs) s.world with
  | some result =>
    cases result with
    | none => exact .inl ⟨_, rfl, rfl⟩
    | some value =>
      refine .inr ⟨_, _, _, rfl, rfl, ?_, ?_, ?_⟩
      · unfold State.assignOutput
        cases row.instruction.output <;> exact hlocs
      · unfold State.assignOutput
        cases row.instruction.output <;> exact hwld
      · intro dst hdst
        unfold State.assignOutput
        rw [show row.instruction.output = some dst from hdst]
        simp [State.assign]
  | none =>
    have hlockstep := stepRow_lockstep (x := w.external) (r := id) (d := id)
      (show row.span = row.span from rfl) (Instruction.rewrite_id _).symm
      (fun v hv => ⟨rfl, hinps v hv⟩) (fun v hv => rfl) hlocs hwld
    refine hlockstep.imp_right ?_
    rintro ⟨s', t', events, hs, ht, hboth⟩
    exact ⟨s', t', events, hs, ht, hboth.locals, hboth.world, hboth.written⟩

/-- The function and the one without its dead rows, in step. -/
structure Matches (sealedFunction : Sealed P) (s t : State (Value H) W) : Prop where
  block : t.block = s.block
  index : t.index = keptIndex sealedFunction s.block s.index
  locals : t.locals = s.locals
  world : t.world = s.world
  env : ∀ u, liveHere sealedFunction s.block s.index u = true → t.env u = s.env u
  located : Located sealedFunction.function s

variable {s t : State (Value H) W} {row : Row P}

/-- A deleted row is a silent step. -/
theorem Matches.deleted (h : Matches sealedFunction s t) (hw : w.KeepsLocals)
    (hwell : WellFormed checks.scalar sealedFunction.function context)
    (hrow : (sealedFunction.function.rowsAt s.block)[s.index]? = some row) (hpure : PureRow row)
    (hdead : isDead row.instruction (liveHere sealedFunction s.block (s.index + 1)) = true)
    (hkept : keptIndex sealedFunction s.block (s.index + 1) =
      keptIndex sealedFunction s.block s.index) :
    ∃ s', interpret w sealedFunction.function s = .next s' [] ∧ Matches sealedFunction s' t ∧
      s'.block = s.block ∧ s'.index = s.index + 1 := by
  obtain ⟨trace, hpath, htyped⟩ := h.located
  obtain ⟨dst, value, hout, hrun⟩ := hpure H W w s (htyped.inputs hwell hpath hrow)
  have hstep : interpret w sealedFunction.function s = .next (s.assign dst value) [] := by
    unfold interpret
    rw [hrow]
    exact hrun
  refine ⟨_, hstep, ⟨h.block, ?_, h.locals, h.world, fun u hu => ?_, ?_⟩, rfl, rfl⟩
  · rw [h.index]
    exact hkept.symm
  · have hlive : liveHere sealedFunction s.block s.index u = true := by
      rw [liveHere_eq (aligned_of_blockOk hwell.blocks) hrow, if_pos hdead]
      exact hu
    obtain ⟨dst', hout', hnotLive, -⟩ := isDead_iff.mp hdead
    cases hout.symm.trans hout'
    have hne : dst.temp ≠ u := by
      rintro rfl
      rw [show liveHere sealedFunction s.block (s.index + 1) dst.temp = true from hu] at hnotLive
      cases hnotLive
    rw [State.assign_env_ne hne]
    exact h.env u hlive
  · exact h.located.next hw hwell hstep

/-- A row that stays runs in both. -/
theorem Matches.kept (h : Matches sealedFunction s t) (hw : w.KeepsLocals)
    (hwell : WellFormed checks.scalar sealedFunction.function context)
    (hrow : (sealedFunction.function.rowsAt s.block)[s.index]? = some row)
    (hrow' : ((cleaned sealedFunction).rowsAt t.block)[t.index]? = some row)
    (hstays : isDead row.instruction (liveHere sealedFunction s.block (s.index + 1)) = false)
    (hkept : keptIndex sealedFunction s.block (s.index + 1) =
      keptIndex sealedFunction s.block s.index + 1) :
    (∃ outcome, interpret w sealedFunction.function s = .halt outcome ∧
      interpret w (cleaned sealedFunction) t = .halt outcome) ∨
    ∃ s' t' events, interpret w sealedFunction.function s = .next s' events ∧
      interpret w (cleaned sealedFunction) t = .next t' events ∧ Matches sealedFunction s' t' := by
  have hsrc : interpret w sealedFunction.function s = interpretRow w row s := by
    unfold interpret
    rw [hrow]
  have htgt : interpret w (cleaned sealedFunction) t = interpretRow w row t := by
    unfold interpret
    rw [hrow']
  have hbef : ∀ u, ((∃ v ∈ row.instruction.inputs, v.temp = u) ∨
      (liveHere sealedFunction s.block (s.index + 1) u = true ∧
        ∀ dst ∈ row.instruction.output, dst.temp ≠ u)) → t.env u = s.env u := by
    intro u hu
    refine h.env u ?_
    rw [liveHere_eq (aligned_of_blockOk hwell.blocks) hrow, if_neg (by simp [hstays])]
    exact liveAbove_iff.mpr hu
  rw [hsrc, htgt]
  rcases interpretRow_agree (w := w) (fun v hv => hbef v.temp (.inl ⟨v, hv, rfl⟩)) h.locals h.world
    with hhalt | ⟨s', t', events, hs, ht, hlocs, hwld, hwrtn⟩
  · exact .inl hhalt
  · have hfr := interpretRow_framed hs
    have hfr' := interpretRow_framed ht
    refine .inr ⟨s', t', events, hs, ht, ?_, ?_, hlocs, hwld, fun u hu => ?_, ?_⟩
    · rw [hfr'.block, hfr.block, h.block]
    · rw [hfr'.index, hfr.block, hfr.index, h.index, hkept]
    · rw [hfr.block, hfr.index] at hu
      by_cases hdst : ∃ dst, row.instruction.output = some dst ∧ dst.temp = u
      · obtain ⟨dst, hout, rfl⟩ := hdst
        exact hwrtn dst hout
      · have hother : ∀ dst ∈ row.instruction.output, dst.temp ≠ u :=
          fun dst hout heq => hdst ⟨dst, hout, heq⟩
        rw [hfr'.env u hother, hfr.env u hother]
        exact hbef u (.inr ⟨hu, hother⟩)
    · exact h.located.next hw hwell (hsrc.trans hs)

/-- The terminator runs in both. -/
theorem Matches.left (h : Matches sealedFunction s t) (hw : w.KeepsLocals)
    (hwell : WellFormed checks.scalar sealedFunction.function context)
    (hlive : LiveSound sealedFunction.function sealedFunction.analysis)
    (hrow : (sealedFunction.function.rowsAt s.block)[s.index]? = none)
    (hrow' : ((cleaned sealedFunction).rowsAt t.block)[t.index]? = none) :
    (∃ outcome, interpret w sealedFunction.function s = .halt outcome ∧
      interpret w (cleaned sealedFunction) t = .halt outcome) ∨
    ∃ s' t' events, interpret w sealedFunction.function s = .next s' events ∧
      interpret w (cleaned sealedFunction) t = .next t' events ∧ Matches sealedFunction s' t' := by
  have halgn := aligned_of_blockOk hwell.blocks
  obtain ⟨trace, hpath, -⟩ := h.located
  obtain ⟨walk, hwalk, -, -⟩ := (path_iff _).mp hpath
  have hend : liveHere sealedFunction s.block s.index = liveTemps sealedFunction s.block :=
    liveHere_end halgn (getElem?_eq_none_iff.mp hrow)
  have hsrc : interpret w sealedFunction.function s = stepTerminator w.external
      (sealedFunction.function.terminatorAt s.block)
      (sealedFunction.function.terminatorSpanAt s.block) s := by
    unfold interpret
    rw [hrow]
  have htgt : interpret w (cleaned sealedFunction) t = stepTerminator w.external
      ((sealedFunction.function.terminatorAt s.block).map (·.rewriteInput id))
      (sealedFunction.function.terminatorSpanAt s.block) t := by
    unfold interpret
    rw [hrow', h.block, terminatorAt_cleaned, terminatorSpanAt_cleaned]
    simp only [Terminator.rewriteInput_id]
    rw [Option.map_id']
  have hinp : ∀ v, (sealedFunction.function.terminatorAt s.block).bind (·.input) = some v →
      t.env (id v).temp = s.env v.temp := by
    intro v hv
    refine h.env v.temp ?_
    rw [hend]
    exact liveTemps_input hwell hlive hwalk hv
  rw [hsrc, htgt]
  refine (stepTerminator_lockstep (x := w.external) _ h.world hinp).imp_right ?_
  rintro ⟨target, htgt', hs, ht⟩
  refine ⟨_, _, _, hs, ht, rfl, ?_, h.locals, h.world, fun u hu => ?_, ?_⟩
  · show 0 = keptIndex sealedFunction target 0
    rfl
  · refine h.env u ?_
    rw [hend]
    exact liveHere_jump hwell hlive hwalk htgt' hu
  · exact h.located.next hw hwell (hsrc.trans hs)

theorem simulation (hw : w.KeepsLocals)
    (hwell : WellFormed checks.scalar sealedFunction.function context)
    (hlive : LiveSound sealedFunction.function sealedFunction.analysis)
    (hpure : ∀ b index row, (∃ walk, sealedFunction.function.Walk b walk) →
      (sealedFunction.function.rowsAt b)[index]? = some row → deadIn sealedFunction b index = true →
      PureRow row) :
    Machine.Simulation (interpret w sealedFunction.function) (interpret w (cleaned sealedFunction))
      (Matches sealedFunction)
      (fun s => (sealedFunction.function.rowsAt s.block).length - s.index) := by
  have halgn := aligned_of_blockOk hwell.blocks
  constructor
  intro s t h
  obtain ⟨trace, hpath, -⟩ := h.located
  obtain ⟨walk, hwalk, -, -⟩ := (path_iff _).mp hpath
  have hrchb := reachable_of_walk hlive (inRange_of_blockOk hwell.entry hwell.blocks) hwalk
  have hboth : ∀ {s' t' events}, interpret w sealedFunction.function s = .next s' events →
      interpret w (cleaned sealedFunction) t = .next t' events → Matches sealedFunction s' t' →
      ∃ k s'' events', Machine.run (interpret w sealedFunction.function) (k + 1) s =
        (events', .inl s'') ∧ ((events' = [] ∧ Matches sealedFunction s'' t ∧
          (sealedFunction.function.rowsAt s''.block).length - s''.index <
            (sealedFunction.function.rowsAt s.block).length - s.index) ∨
        ∃ t'', interpret w (cleaned sealedFunction) t = .next t'' events' ∧
          Matches sealedFunction s'' t'') := by
    intro s' t' events hs ht hmatch
    refine ⟨0, s', events, ?_, .inr ⟨t', ht, hmatch⟩⟩
    rw [Machine.run_next hs, Machine.run]
    simp
  cases hrow : (sealedFunction.function.rowsAt s.block)[s.index]? with
  | none =>
    have hrow' : ((cleaned sealedFunction).rowsAt t.block)[t.index]? = none := by
      rw [h.block, h.index, rowsAt_cleaned]
      exact getElem?_keep_none (List.getElem?_eq_none_iff.mp hrow)
    rcases h.left hw hwell hlive hrow hrow' with hhalt | ⟨s', t', events, hs, ht, hmatch⟩
    · exact .inl hhalt
    · exact .inr (hboth hs ht hmatch)
  | some row =>
    have hlt := (List.getElem?_eq_some_iff.mp hrow).1
    have hdeadIn := deadIn_eq hrchb halgn hrow
    cases hdead : deadIn sealedFunction s.block s.index with
    | true =>
      have hkept : keptIndex sealedFunction s.block (s.index + 1) =
          keptIndex sealedFunction s.block s.index := by
        unfold keptIndex
        rw [keep_take_succ hlt, if_pos hdead, List.append_nil]
      obtain ⟨s', hs, hmatch, hblk, hidx⟩ := h.deleted hw hwell hrow
        (hpure s.block s.index row ⟨walk, hwalk⟩ hrow hdead) (hdeadIn ▸ hdead) hkept
      refine .inr ⟨0, s', [], ?_, .inl ⟨rfl, hmatch, ?_⟩⟩
      · rw [Machine.run_next hs, Machine.run]
        rfl
      · rw [hblk, hidx]
        omega
    | false =>
      have hkept : keptIndex sealedFunction s.block (s.index + 1) =
          keptIndex sealedFunction s.block s.index + 1 := by
        unfold keptIndex
        rw [keep_take_succ hlt, if_neg (by simp [hdead]), List.length_append]
        rfl
      have hrow' : ((cleaned sealedFunction).rowsAt t.block)[t.index]? = some row := by
        rw [h.block, h.index, rowsAt_cleaned]
        exact (getElem?_keep hlt hdead).trans hrow
      rcases h.kept hw hwell hrow hrow' (hdeadIn ▸ hdead) hkept with hhalt |
        ⟨s', t', events, hs, ht, hmatch⟩
      · exact .inl hhalt
      · exact .inr (hboth hs ht hmatch)

end Simulation

/-! ## Reads of what stays -/

/-- Some path from a row reads the temporary before it writes it. -/
inductive ReadLater {P : Type} (f : MirFunction P) (t : TempId) : BlockId → Nat → Prop
  | row {b : BlockId} {index : Nat} {row : Row P} {v : MirValue} :
      (f.rowsAt b)[index]? = some row → v ∈ row.instruction.inputs → v.temp = t → ReadLater f t b index
  | next {b : BlockId} {index : Nat} {row : Row P} : (f.rowsAt b)[index]? = some row →
      (∀ dst ∈ row.instruction.output, dst.temp ≠ t) → ReadLater f t b (index + 1) →
      ReadLater f t b index
  | terminator {b : BlockId} {index : Nat} {v : MirValue} : (f.rowsAt b)[index]? = none →
      (f.terminatorAt b).bind (·.input) = some v → v.temp = t → ReadLater f t b index
  | jump {b target : BlockId} {index : Nat} : (f.rowsAt b)[index]? = none →
      target ∈ f.successorsAt b → ReadLater f t target 0 → ReadLater f t b index

section Reads

variable {P : Type} {sealedFunction : Sealed P} {checks : Checks P} {context : Context}
  {b : BlockId}

/-- The next row that stays, or the end of the block. -/
theorem next_kept (halgn : sealedFunction.function.Aligned)
    (hrchb : reachable sealedFunction b = true) (index : Nat) :
    (((cleaned sealedFunction).rowsAt b)[keptIndex sealedFunction b index]? = none ∧
      liveHere sealedFunction b index = liveTemps sealedFunction b) ∨
    ∃ stop row, (sealedFunction.function.rowsAt b)[stop]? = some row ∧
      ((cleaned sealedFunction).rowsAt b)[keptIndex sealedFunction b index]? = some row ∧
      keptIndex sealedFunction b (stop + 1) = keptIndex sealedFunction b index + 1 ∧
      liveHere sealedFunction b index =
        liveAbove row.instruction (liveHere sealedFunction b (stop + 1)) := by
  induction hn : (sealedFunction.function.rowsAt b).length - index generalizing index with
  | zero =>
    have hle : (sealedFunction.function.rowsAt b).length ≤ index := by omega
    refine .inl ⟨?_, liveHere_end halgn hle⟩
    rw [rowsAt_cleaned]
    exact getElem?_keep_none hle
  | succ n ih =>
    have hlt : index < (sealedFunction.function.rowsAt b).length := by omega
    have hrow := getElem?_eq_getElem hlt
    have hdeadIn := deadIn_eq hrchb halgn hrow
    have hlive := liveHere_eq halgn hrow
    cases hdead : deadIn sealedFunction b index with
    | true =>
      have hkept : keptIndex sealedFunction b (index + 1) = keptIndex sealedFunction b index := by
        unfold keptIndex
        rw [keep_take_succ hlt, if_pos hdead, append_nil]
      rw [if_pos (hdeadIn ▸ hdead)] at hlive
      rw [hlive, ← hkept]
      exact ih (index + 1) (by omega)
    | false =>
      refine .inr ⟨index, _, hrow, ?_, ?_, ?_⟩
      · rw [rowsAt_cleaned]
        exact (getElem?_keep hlt hdead).trans hrow
      · unfold keptIndex
        rw [keep_take_succ hlt, if_neg (by simp [hdead]), length_append]
        rfl
      · rw [if_neg (by rw [← hdeadIn, hdead]; simp)] at hlive
        exact hlive

/-- What is read among the rows that stay is live. -/
theorem live_of_readLater (hwell : WellFormed checks sealedFunction.function context)
    (hlive : LiveSound sealedFunction.function sealedFunction.analysis) {place : Nat}
    (h : ReadLater (cleaned sealedFunction) t b place) :
    ∀ index, keptIndex sealedFunction b index = place →
      (∃ walk, sealedFunction.function.Walk b walk) → liveHere sealedFunction b index t = true := by
  have halgn := aligned_of_blockOk hwell.blocks
  have hrng := inRange_of_blockOk hwell.entry hwell.blocks
  induction h with
  | @row b place row v hrow hv heq =>
    rintro index rfl ⟨walk, hwalk⟩
    rcases next_kept halgn (reachable_of_walk hlive hrng hwalk) index with ⟨hnone, -⟩ |
      ⟨stop, row', -, hrow', -, habove⟩
    · rw [hnone] at hrow
      cases hrow
    · cases hrow.symm.trans hrow'
      rw [habove, liveAbove_iff]
      exact .inl ⟨v, hv, heq⟩
  | @next b place row hrow hkept _ ih =>
    rintro index rfl ⟨walk, hwalk⟩
    rcases next_kept halgn (reachable_of_walk hlive hrng hwalk) index with ⟨hnone, -⟩ |
      ⟨stop, row', -, hrow', hnext, habove⟩
    · rw [hnone] at hrow
      cases hrow
    · cases hrow.symm.trans hrow'
      rw [habove, liveAbove_iff]
      exact .inr ⟨ih (stop + 1) hnext ⟨walk, hwalk⟩, hkept⟩
  | @terminator b place v hnone hv heq =>
    rintro index rfl ⟨walk, hwalk⟩
    rcases next_kept halgn (reachable_of_walk hlive hrng hwalk) index with ⟨-, hend⟩ |
      ⟨stop, row', -, hrow', -, -⟩
    · rw [terminatorAt_cleaned] at hv
      rw [hend, ← heq]
      exact liveTemps_input hwell hlive hwalk hv
    · rw [hnone] at hrow'
      cases hrow'
  | @jump b target place hnone hedge _ ih =>
    rintro index rfl ⟨walk, hwalk⟩
    rcases next_kept halgn (reachable_of_walk hlive hrng hwalk) index with ⟨-, hend⟩ |
      ⟨stop, row', -, hrow', -, -⟩
    · have hedge' : sealedFunction.function.Edge b target := by
        unfold MirFunction.successorsAt at hedge
        rw [terminatorAt_cleaned] at hedge
        exact hedge
      rw [hend]
      exact liveHere_jump hwell hlive hwalk hedge' (ih 0 rfl ⟨_, hwalk.step hedge'⟩)
    · rw [hnone] at hrow'
      cases hrow'

end Reads

/-! ## The whole pass -/

/-- The facts of the seal are those that the verifier has found. -/
def Verified {P : Type} (checks : Checks P) (sealedFunction : Sealed P) : Prop :=
  ∃ context budget budget', (verifyFunction checks sealedFunction.function context).run budget =
    .ok (sealedFunction.analysis, budget')

def removed (removals : List (Nat × BlockId × Nat)) (k : Nat) (b : BlockId) (index : Nat) : Bool :=
  decide ((k, b, index) ∈ removals)

/-- What is removed from a function is removed faithfully: the blocks are those without the removed
rows, in order, column by column; a removed row does nothing but write its result, which nothing that
stays reads; the function runs as before. -/
structure Faithful {P : Type} (removals : List (Nat × BlockId × Nat)) (k : Nat)
    (f f' : MirFunction P) : Prop where
  rest : f' = { f with blocks := f'.blocks }
  blocks : ∀ b : BlockId, f'.blocks[b]? = f.blocks[b]?.map fun block =>
    block.withRows (keep (removed removals k b) block.rows)
  aligned : f'.Aligned
  pure : ∀ b index row, (k, b, index) ∈ removals → (f.rowsAt b)[index]? = some row → PureRow row
  unread : ∀ b index row dst, (k, b, index) ∈ removals → (f.rowsAt b)[index]? = some row →
    row.instruction.output = some dst →
    ¬ReadLater f' dst.temp b (keep (removed removals k b) ((f.rowsAt b).take index)).length
  execution : SameOnArguments f f'

variable {b : BlockId}

section Pass

variable {P : Type} {checks : Checks P} {functions : List (Sealed P)} {k : Nat} {s : Sealed P}

theorem keep_congr {α : Type} {dead dead' : Nat → Bool} {xs : List α}
    (h : ∀ index < xs.length, dead index = dead' index) : keep dead xs = keep dead' xs := by
  unfold keep
  congr 1
  refine filter_congr ?_
  rintro ⟨x, index⟩ hmem
  have hlt := (mem_zipIdx hmem).2.1
  rw [Nat.zero_add] at hlt
  rw [h index hlt]

theorem removed_eq (hk : functions[k]? = some s)
    (hlt : index < (instructionsAt s.function b).length) :
    removed (allRemovals functions) k b index = deadIn s b index := by
  unfold removed
  rw [Bool.eq_iff_iff, decide_eq_true_eq, mem_allRemovals hk]
  exact ⟨fun h => h.2, fun h => ⟨hlt, h⟩⟩

theorem clean_aligned (dead : Nat → Bool) (block : BasicBlock P) : (clean dead block).Aligned := by
  unfold clean BasicBlock.withRows BasicBlock.Aligned
  simp

theorem walk_of_deadIn (hlive : LiveSound s.function s.analysis)
    {row : Row P} (hrow : (s.function.rowsAt b)[index]? = some row) (hdead : deadIn s b index = true) :
    ∃ walk, s.function.Walk b walk := by
  have hb : b < s.function.blocks.length := by
    by_contra hnot
    unfold MirFunction.rowsAt at hrow
    rw [getElem?_eq_none_iff.mpr (Nat.not_lt.mp hnot)] at hrow
    cases hrow
  unfold deadIn at hdead
  rw [Bool.and_eq_true] at hdead
  obtain ⟨record, hrec, hreach⟩ := hlive.reachable b hb
  refine hreach.mp ?_
  have hrchb := hdead.1
  unfold reachable at hrchb
  rwa [hrec] at hrchb

theorem isDead_effects {i : Instruction P} (h : isDead i live = true) :
    i.effects = {} :=
  (isDead_iff.mp h).choose_spec.2.2

/-- What is removed is faithful, if the rows that are not needed are pure. -/
theorem faithful_cleaned {context : Context} (hwell : WellFormed checks.scalar s.function context)
    (hlive : LiveSound s.function s.analysis) (hk : functions[k]? = some s)
    (hgnrc : ∀ b index row, (s.function.rowsAt b)[index]? = some row →
      deadIn s b index = true → genericEquality row.instruction = false) :
    Faithful (allRemovals functions) k s.function (cleaned s) := by
  have halgn := aligned_of_blockOk hwell.blocks
  have hrng := inRange_of_blockOk hwell.entry hwell.blocks
  have hlen : ∀ b, (instructionsAt s.function b).length = (s.function.rowsAt b).length := by
    intro b
    rw [instructionsAt_eq halgn, List.length_map]
  have hpure : ∀ b index row, (∃ walk, s.function.Walk b walk) →
      (s.function.rowsAt b)[index]? = some row → deadIn s b index = true → PureRow row := by
    rintro b index row ⟨walk, hwalk⟩ hrow hdead
    have hisDead := deadIn_eq (reachable_of_walk hlive hrng hwalk) halgn hrow
    exact pureRow (hwell.row_ok hrow) (isDead_effects (hisDead ▸ hdead)) (hgnrc b index row hrow hdead)
  have hwalk : ∀ {b index row}, (k, b, index) ∈ allRemovals functions →
      (s.function.rowsAt b)[index]? = some row →
      deadIn s b index = true ∧ ∃ walk, s.function.Walk b walk := by
    intro b index row hmem hrow
    have hdead := ((mem_allRemovals hk).mp hmem).2
    exact ⟨hdead, walk_of_deadIn hlive hrow hdead⟩
  refine ⟨rfl, fun b => ?_, ?_, ?_, ?_, ?_⟩
  · rw [blocks_cleaned]
    cases hb : s.function.blocks[b]? with
    | none => rfl
    | some block =>
      have hrows : s.function.rowsAt b = block.rows := by
        unfold MirFunction.rowsAt
        rw [hb]
        rfl
      rw [Option.map_some, Option.map_some]
      unfold clean
      congr 2
      refine keep_congr fun index hidx => (removed_eq hk ?_).symm
      rw [hlen, hrows]
      exact hidx
  · intro block hblk
    obtain ⟨b, hb⟩ := List.mem_iff_getElem?.mp hblk
    rw [blocks_cleaned] at hb
    obtain ⟨block', -, rfl⟩ := Option.map_eq_some_iff.mp hb
    exact clean_aligned _ _
  · intro b index row hmem hrow
    obtain ⟨hdead, hrch⟩ := hwalk hmem hrow
    exact hpure b index row hrch hrow hdead
  · intro b index row dst hmem hrow hout hread
    obtain ⟨hdead, walk, hrch⟩ := hwalk hmem hrow
    have hlt := (List.getElem?_eq_some_iff.mp hrow).1
    have hplc : (keep (removed (allRemovals functions) k b) ((s.function.rowsAt b).take index)).length =
        keptIndex s b (index + 1) := by
      unfold keptIndex
      rw [keep_take_succ hlt, if_pos hdead, List.append_nil]
      congr 1
      refine keep_congr fun j hj => removed_eq hk ?_
      rw [List.length_take] at hj
      rw [hlen]
      omega
    rw [hplc] at hread
    have hlat := live_of_readLater hwell hlive hread (index + 1) rfl ⟨walk, hrch⟩
    have hisDead := deadIn_eq (reachable_of_walk hlive hrng hrch) halgn hrow
    obtain ⟨dst', hout', hnotLive, -⟩ := isDead_iff.mp (hisDead ▸ hdead)
    cases hout.symm.trans hout'
    rw [hlat] at hnotLive
    cases hnotLive
  · intro H W w env locals world hw hargs
    refine (simulation hw hwell hlive hpure).same ⟨rfl, rfl, rfl, rfl, fun u _ => rfl, ?_⟩
    exact ⟨[], .entry, typedAt_start hargs⟩

end Pass

/-- Removing what `find` marks is faithful exactly when every equality test of generic operands in a
reachable block is needed. -/
theorem find_apply_faithful_iff {P : Type} (checks : Checks P) (functions : List (Sealed P))
    (hverified : ∀ s ∈ functions, Verified checks.scalar s)
    (removals : List (Nat × BlockId × Nat)) (work work' : Work)
    (hfind : (find functions).run work = .ok (removals, work'))
    (deleted : List (MirFunction P)) (work'' : Work)
    (happly : (apply (functions.map (·.function)) removals).run work' = .ok (deleted, work''))
    (k : Nat) (s : Sealed P) (hk : functions[k]? = some s) :
    ∃ f', deleted[k]? = some f' ∧ (Faithful removals k s.function f' ↔
      ∀ b index row, (∃ walk, s.function.Walk b walk) → (s.function.rowsAt b)[index]? = some row →
        genericEquality row.instruction = true →
        Needed (instructionsAt s.function b) (fun t => liveTemps s b t = true) index) := by
  have hall : ∀ s ∈ functions, s.function.Aligned := by
    intro s hs
    obtain ⟨context, budget, budget', hrun⟩ := hverified s hs
    exact aligned_of_blockOk (verifyFunction_spec _ _ _ _ _ _ hrun).blocks
  obtain ⟨context, budget, budget', hrun⟩ := hverified s (List.mem_of_getElem? hk)
  have hwell := verifyFunction_spec _ _ _ _ _ _ hrun
  have hlive := verifyFunction_live _ _ _ _ _ _ hrun
  have halgn := aligned_of_blockOk hwell.blocks
  have hrng := inRange_of_blockOk hwell.entry hwell.blocks
  obtain rfl := find_spec functions work removals work' hfind
  obtain rfl := apply_spec functions hall work' deleted work'' happly
  refine ⟨cleaned s, by rw [List.getElem?_map, hk]; rfl, ?_⟩
  have hneeded : ∀ {b index row}, (∃ walk, s.function.Walk b walk) →
      (s.function.rowsAt b)[index]? = some row →
      (Needed (instructionsAt s.function b) (fun t => liveTemps s b t = true) index ↔
        deadIn s b index = false) := by
    rintro b index row ⟨walk, hwalk⟩ hrow
    rw [needed_iff (List.getElem?_eq_some_iff.mp (code_of_row halgn hrow)).1]
    unfold deadIn
    rw [reachable_of_walk hlive hrng hwalk, Bool.true_and]
  constructor
  · intro hfaith b index row hwalk hrow hgnrc
    rw [hneeded hwalk hrow]
    cases hdead : deadIn s b index with
    | false => rfl
    | true =>
      have hmem : (k, b, index) ∈ allRemovals functions :=
        (mem_allRemovals hk).mpr
          ⟨(List.getElem?_eq_some_iff.mp (code_of_row halgn hrow)).1, hdead⟩
      exact absurd (hfaith.pure b index row hmem hrow) (not_pureRow (hwell.row_ok hrow) hgnrc)
  · intro hcond
    refine faithful_cleaned hwell hlive hk fun b index row hrow hdead => ?_
    have hwalk := walk_of_deadIn hlive hrow hdead
    cases hgnrc : genericEquality row.instruction with
    | false => rfl
    | true =>
      rw [(hneeded hwalk hrow).mp (hcond b index row hwalk hrow hgnrc)] at hdead
      cases hdead

/-! ## A dead comparison -/

/-- A function of one block, with what it compares. -/
def comparing (generic : Option Unit) (ty : ValueType) (semantic : List (Nat × Ty)) : MirFunction Unit where
  semantic := ⟨generic, semantic, none, semantic, semantic⟩
  params := [⟨ty, 0⟩]
  returnType := .unit
  locals := [⟨ty⟩]
  temps := [⟨ty⟩, ⟨.bool⟩]
  blocks := [{
    instructions := [.loadLocal ⟨0, ty⟩ 0, .binary ⟨1, .bool⟩ .eq ⟨0, ty⟩ ⟨0, ty⟩]
    instructionSpans := [⟨0, 1⟩, ⟨0, 6⟩]
    instructionScopes := [0, 0]
    terminator := some (.ret none)
    terminatorSpan := some ⟨6, 7⟩
    terminatorScope := some 0 }]
  entry := 0
  effects := { readsLocal := true }
  debug := ⟨⟨0, 7⟩, [⟨0, ⟨0, 1⟩, ty, true⟩], [], [⟨none, none⟩]⟩

/-- `x == x` of an integer. -/
def comparedIntegers : MirFunction Unit := comparing none .i32 [(0, .builtin .i32)]

/-- `x == x` of a type parameter. -/
def comparedGenerics : MirFunction Unit := comparing (some ()) .generic [(0, .parameter ⟨0, 0⟩ 0)]

/-- The function with the facts that the verifier finds. -/
def sealFunction (f : MirFunction Unit) : Option (Sealed Unit) :=
  match (verifyFunction openChecks.scalar f ⟨false, none, none, none⟩).run ⟨0, 0⟩ with
  | .ok (analysis, _) => some ⟨f, analysis⟩
  | .error _ => none

theorem sealFunction_verified {s : Sealed Unit} (h : sealFunction f = some s) :
    s.function = f ∧ Verified openChecks.scalar s := by
  unfold sealFunction at h
  split at h
  · rename_i analysis budget hrun
    cases h
    exact ⟨rfl, _, _, budget, hrun⟩
  · cases h

/-- Find and delete, with a limit that is enough. -/
def removeDead (f : MirFunction Unit) : Option (List (Nat × BlockId × Nat) × List Nat) := do
  let s ← sealFunction f
  let (removals, work) ← ((find [s]).run ⟨0, 1000, false⟩).toOption
  let (deleted, _) ← ((apply [s.function] removals).run work).toOption
  return (removals, deleted.map fun f' => (f'.rowsAt 0).length)

theorem removeDead_some {removals : List (Nat × BlockId × Nat)}
    {lengths : List Nat} (h : removeDead f = some (removals, lengths)) :
    ∃ s work deleted work', Verified openChecks.scalar s ∧ s.function = f ∧
      (find [s]).run ⟨0, 1000, false⟩ = .ok (removals, work) ∧
      (apply ([s].map (·.function)) removals).run work = .ok (deleted, work') := by
  have hok : ∀ {ε α : Type} {x : Except ε α} {a : α}, x.toOption = some a → x = .ok a := by
    intro ε α x a hx
    cases x with
    | error e => cases hx
    | ok value => exact congrArg Except.ok (Option.some.inj hx)
  obtain ⟨s, hs, h⟩ := Option.bind_eq_some_iff.mp h
  obtain ⟨⟨removals', work⟩, hfind, h⟩ := Option.bind_eq_some_iff.mp h
  obtain ⟨⟨deleted, work'⟩, happly, h⟩ := Option.bind_eq_some_iff.mp h
  obtain rfl : removals' = removals := (Prod.mk.inj (Option.some.inj h)).1
  obtain ⟨hf, hver⟩ := sealFunction_verified hs
  exact ⟨s, work, deleted, work', hver, hf, hok hfind, hok happly⟩

theorem find_apply_faithful_iff_comparedIntegers :
    ∃ f', Faithful [(0, 0, 1)] 0 comparedIntegers f' := by
  have hrun : removeDead comparedIntegers = some ([(0, 0, 1)], [1]) := by
    decide +kernel
  obtain ⟨s, work, deleted, work', hver, hf, hfind, happly⟩ := removeDead_some hrun
  obtain ⟨f', -, hiff⟩ := find_apply_faithful_iff openChecks [s] (by simpa using hver) _ _ work hfind
    deleted work' happly 0 s rfl
  rw [← hf]
  refine ⟨f', hiff.mpr fun b index row _ hrow hgnrc => ?_⟩
  rw [hf] at hrow
  exfalso
  rcases b with _ | b
  · rcases index with _ | _ | index
    · cases hrow
      cases hgnrc
    · cases hrow
      cases hgnrc
    · cases hrow
  · cases hrow

/-- A dead equality test of a type parameter is removed, with its trap. -/
theorem comparedGenerics_unfaithful :
    ∃ s removals work deleted work' f', Verified openChecks.scalar s ∧ s.function = comparedGenerics ∧
      (find [s]).run ⟨0, 1000, false⟩ = .ok (removals, work) ∧
      (apply ([s].map (·.function)) removals).run work = .ok (deleted, work') ∧
      deleted[0]? = some f' ∧ ¬SameOnArguments comparedGenerics f' := by
  have hrun : removeDead comparedGenerics = some ([(0, 0, 1)], [1]) := by
    decide +kernel
  obtain ⟨s, work, deleted, work', hver, hf, hfind, happly⟩ := removeDead_some hrun
  obtain ⟨context, budget, budget', hok⟩ := hver
  have halgn := aligned_of_blockOk (verifyFunction_spec _ _ _ _ _ _ hok).blocks
  have hrems := find_spec [s] _ _ work hfind
  have hdel := apply_spec [s] (by simpa using halgn) work deleted work' (hrems ▸ happly)
  refine ⟨s, _, work, deleted, work', cleaned s, ⟨context, budget, budget', hok⟩, hf, hfind, happly,
    by rw [hdel]; rfl, fun hsame => ?_⟩
  have hdead : deadIn s 0 0 = false ∧ deadIn s 0 1 = true := by
    have hiff : ∀ index, (0, 0, index) ∈ [((0 : Nat), (0 : BlockId), 1)] ↔
        index < (instructionsAt comparedGenerics 0).length ∧ deadIn s 0 index = true := by
      intro index
      rw [hrems, mem_allRemovals rfl, hf]
    constructor
    · by_contra hnot
      have hmem := (hiff 0).mpr ⟨by decide, by simpa using hnot⟩
      simp at hmem
    · exact ((hiff 1).mp (by simp)).2
  have hrows : (cleaned s).rowsAt 0 = (comparedGenerics.rowsAt 0).take 1 := by
    rw [rowsAt_cleaned, hf]
    show keep (deadIn s 0) [_, _] = [_]
    simp [keep, hdead]
  have hterm : (cleaned s).terminatorAt 0 = some (.ret none) := by
    rw [terminatorAt_cleaned, hf]
    rfl
  have hent : (cleaned s).entry = 0 := by
    unfold cleaned
    rw [hf]
    rfl
  -- one structure as the argument, in a world where structures have no equality
  have hboth := (hsame Unit Unit incomparable (fun _ => .unit) (fun _ => .struct ()) ()
    (fun _ _ _ _ _ _ _ h => by cases h) (fun param hparam ty hty => by
      obtain rfl := List.mem_singleton.mp hparam
      obtain rfl : ValueType.generic = ty := congrArg MirLocal.ty (Option.some.inj hty)
      rfl)).halts []
  let first : State (Value Unit) Unit := ⟨0, 0, fun _ => .unit, fun _ => .struct (), ()⟩
  let second : State (Value Unit) Unit := first.assign ⟨0, .generic⟩ (.struct ())
  have hfst : interpret incomparable comparedGenerics first = .next second [] := rfl
  obtain ⟨outcome, hsnd, htrap⟩ : ∃ outcome,
      interpret incomparable comparedGenerics second = .halt outcome ∧
        ∀ value world, outcome ≠ .returned value world :=
    ⟨_, rfl, nofun⟩
  have hfst' : interpret incomparable (cleaned s) first = .next second [] := by
    unfold interpret
    rw [show (cleaned s).rowsAt first.block = _ from hrows]
    rfl
  have hsnd' : interpret incomparable (cleaned s) second = .halt (.returned none ()) := by
    unfold interpret
    rw [show (cleaned s).rowsAt second.block = _ from hrows,
      show (cleaned s).terminatorAt second.block = _ from hterm]
    rfl
  have hst : start (cleaned s) (fun _ => .unit) (fun _ => .struct ()) () = first := by
    unfold start
    rw [hent]
  rw [hst] at hboth
  obtain ⟨n, hn⟩ := (hboth outcome).mp ⟨2, by
    show Machine.run (interpret incomparable comparedGenerics) 2 first = _
    rw [Machine.run_next hfst, Machine.run_halt hsnd]
    rfl⟩
  rcases n with _ | _ | n
  · cases congrArg Prod.snd hn
  · rw [Machine.run_next hfst'] at hn
    cases congrArg Prod.snd hn
  · rw [Machine.run_next hfst', Machine.run_halt hsnd'] at hn
    exact htrap none () (Sum.inr.inj (congrArg Prod.snd hn)).symm

end Kagari.Mir.Dead
