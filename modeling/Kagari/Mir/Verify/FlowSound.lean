import Kagari.Lib.Dataflow
import Kagari.Mir.Verify.Flow

/-!
# Definite initialization, against the paths

The solver's fixed point is the greatest solution of the initialization equations (`solve_spec`),
and the state it gives a block is exactly what every path to it has written
(`contains_incoming_iff`).

- `verifyFlow_reads`: in an accepted function every path has written what it reads
- `verifyFlow_fails`: when every path has written what it reads, only a resource limit stops the
  check
-/

namespace Kagari.Mir

open Lib Function List

/-- A jump from block `b` to block `c`. -/
def MirFunction.Edge {P : Type} (f : MirFunction P) (b c : BlockId) : Prop := c ∈ f.successorsAt b

/-- A walk over the blocks from the entry block. -/
abbrev MirFunction.Walk {P : Type} (f : MirFunction P) : BlockId → List BlockId → Prop :=
  Dataflow.Walk f.Edge f.entry

/-- The entry and every jump lead to a block. -/
structure MirFunction.InRange {P : Type} (f : MirFunction P) : Prop where
  entry : f.entry < f.blocks.length
  edges : ∀ b c, f.Edge b c → c < f.blocks.length

variable {E : MirVerificationError → Prop} {b id : BlockId} {i : Nat} {pending : List BlockId}

section Flow

variable {P : Type} (f : MirFunction P) (context : Context)

theorem MirFunction.InRange.walk {f : MirFunction P} (h : f.InRange)
    {trace : List BlockId} (hwalk : f.Walk b trace) : b < f.blocks.length := by
  cases hwalk with
  | entry => exact h.entry
  | step _ hedge => exact h.edges _ _ hedge

/-! ## Reachable blocks -/

/-- The reachable blocks and their predecessors. -/
structure Reachable (reachable : BlockId → Bool) (predecessors : BlockId → List BlockId) : Prop where
  iff : ∀ b, reachable b = true ↔ ∃ trace, f.Walk b trace
  preds : ∀ p c, p ∈ predecessors c ↔ reachable p = true ∧ f.Edge p c

/-- A search that still has `pending` to visit. -/
structure Searching (pending : List BlockId) (reachable : BlockId → Bool)
    (predecessors : BlockId → List BlockId) : Prop where
  sound : ∀ b, reachable b = true → ∃ trace, f.Walk b trace
  waiting : ∀ b ∈ pending, ∃ trace, f.Walk b trace
  entry : reachable f.entry = true ∨ f.entry ∈ pending
  closed : ∀ b c, reachable b = true → f.Edge b c → reachable c = true ∨ c ∈ pending
  preds : ∀ p c, p ∈ predecessors c ↔ reachable p = true ∧ f.Edge p c

theorem mem_pushPredecessor {id p c : BlockId} {targets : List BlockId} :
    ∀ {predecessors : BlockId → List BlockId}, p ∈ pushPredecessor id targets predecessors c ↔
      p ∈ predecessors c ∨ (p = id ∧ c ∈ targets) := by
  unfold pushPredecessor
  induction targets with
  | nil => simp
  | cons target targets ih =>
    intro predecessors
    rw [foldl_cons, ih, mem_cons]
    by_cases hc : c = target
    · subst hc
      rw [update_self, mem_append, mem_singleton]
      tauto
    · rw [update_of_ne hc]
      tauto

theorem Searching.skip {f : MirFunction P}
    {reachable : BlockId → Bool} {predecessors : BlockId → List BlockId}
    (h : Searching f (id :: pending) reachable predecessors) (hid : reachable id = true) :
    Searching f pending reachable predecessors := by
  have hdrop : ∀ c, reachable c = true ∨ c ∈ id :: pending → reachable c = true ∨ c ∈ pending := by
    rintro c (hc | hc)
    · exact .inl hc
    · rcases mem_cons.mp hc with rfl | hc
      · exact .inl hid
      · exact .inr hc
  exact ⟨h.sound, fun b hb => h.waiting b (mem_cons_of_mem _ hb), hdrop _ h.entry,
    fun b c hb he => hdrop c (h.closed b c hb he), h.preds⟩

theorem Searching.visit {f : MirFunction P}
    {reachable : BlockId → Bool} {predecessors : BlockId → List BlockId}
    (h : Searching f (id :: pending) reachable predecessors) (hid : reachable id = false) :
    Searching f ((f.successorsAt id).reverse ++ pending) (update reachable id true)
      (pushPredecessor id (f.successorsAt id) predecessors) := by
  have hmark : ∀ b, update reachable id true b = true ↔ b = id ∨ reachable b = true := by
    intro b
    by_cases hb : b = id
    · simp [hb]
    · simp [hb]
  obtain ⟨walk, hwalk⟩ := h.waiting id (by simp)
  have hkeep : ∀ c, reachable c = true ∨ c ∈ id :: pending →
      update reachable id true c = true ∨ c ∈ (f.successorsAt id).reverse ++ pending := by
    rintro c (hc | hc)
    · exact .inl ((hmark c).mpr (.inr hc))
    · rcases mem_cons.mp hc with rfl | hc
      · exact .inl ((hmark c).mpr (.inl rfl))
      · exact .inr (mem_append_right _ hc)
  refine ⟨fun b hb => ?_, fun b hb => ?_, hkeep _ h.entry, fun b c hb he => ?_, fun p c => ?_⟩
  · rcases (hmark b).mp hb with rfl | hb
    · exact ⟨walk, hwalk⟩
    · exact h.sound b hb
  · rcases mem_append.mp hb with hb | hb
    · exact ⟨_, hwalk.step (mem_reverse.mp hb)⟩
    · exact h.waiting b (mem_cons_of_mem _ hb)
  · rcases (hmark b).mp hb with rfl | hb
    · exact .inr (mem_append_left _ (mem_reverse.mpr he))
    · exact hkeep c (h.closed b c hb he)
  · rw [mem_pushPredecessor, h.preds, hmark]
    constructor
    · rintro (⟨hp, he⟩ | ⟨rfl, hc⟩)
      · exact ⟨.inr hp, he⟩
      · exact ⟨.inl rfl, hc⟩
    · rintro ⟨rfl | hp, he⟩
      · exact .inr ⟨rfl, he⟩
      · exact .inl ⟨hp, he⟩

theorem Searching.finish {f : MirFunction P} {reachable : BlockId → Bool}
    {predecessors : BlockId → List BlockId} (h : Searching f [] reachable predecessors) :
    Reachable f reachable predecessors := by
  refine ⟨fun b => ⟨h.sound b, ?_⟩, h.preds⟩
  rintro ⟨trace, hwalk⟩
  induction hwalk with
  | entry => simpa using h.entry
  | step _ hedge ih => simpa using h.closed _ _ ih hedge

theorem reachLoop_spec (fuel : Nat) : ∀ pending reachable predecessors,
    Searching f pending reachable predecessors →
    Ensures (reachLoop f context fuel pending reachable predecessors)
      (fun out => Reachable f out.1 out.2) := by
  induction fuel with
  | zero =>
    intro pending reachable predecessors h
    cases pending with
    | nil => exact .pure h.finish
    | cons id pending => exact .throw
  | succ fuel ih =>
    intro pending reachable predecessors h
    cases pending with
    | nil => exact .pure h.finish
    | cons id pending =>
      refine .seq ?_
      split
      · rename_i hid
        exact ih _ _ _ (h.skip hid)
      · rename_i hid
        exact ih _ _ _ (h.visit (by simpa using hid))

theorem searching_start : Searching f [f.entry] (fun _ => false) (fun _ => []) := by
  refine ⟨by simp, ?_, by simp, by simp, by simp⟩
  intro b hb
  rw [mem_singleton.mp hb]
  exact ⟨[], .entry⟩

/-! ## The equations -/

/-- The state after some instructions. -/
def defined {w : Nat} (code : List (Instruction P)) (state : BitVec w) : BitVec w :=
  code.foldl (fun state i => define f i state) state

variable {code : List (Instruction P)}

theorem contains_defined {w : Nat} {slot : Nat} :
    ∀ {state : BitVec w}, BitSet.contains (defined f code state) slot = true ↔
      BitSet.contains state slot = true ∨ ∃ i ∈ code, slot ∈ definedSlots f i ∧ slot < w := by
  unfold defined
  induction code with
  | nil => simp
  | cons i code ih =>
    intro state
    rw [foldl_cons, ih, define, BitSet.contains_foldl_insert]
    simp only [exists_mem_cons_iff]
    tauto

theorem defineAll_spec {w : Nat} (code : List (Instruction P)) : ∀ state : BitVec w,
    Ensures (defineAll f context code state) (fun out => out = defined f code state) := by
  induction code with
  | nil => exact fun state => .pure rfl
  | cons i code ih => exact fun state => .seq (ih _)

/-- The slots of the parameters. -/
def paramSlots : List Nat := f.params.map fun param => f.temps.length + param.localId

/-- The graph of the initialization equations. -/
def initGraph (w : Nat) (reachable : BlockId → Bool) (predecessors : BlockId → List BlockId) :
    Dataflow.Graph BlockId (Fin w) where
  entry := f.entry
  init := {slot | slot.val ∈ paramSlots f}
  live := {b | reachable b = true}
  preds c := {p | c ≠ f.entry ∧ p ∈ predecessors c}
  gen b := {slot | ∃ i ∈ instructionsAt f b, slot.val ∈ definedSlots f i}

variable {reachable : BlockId → Bool} {predecessors : BlockId → List BlockId} {w : Nat}

variable {outputs : BlockId → BitVec w}

theorem toSet_meet {preds : List BlockId} :
    ∀ {state : BitVec w}, BitSet.toSet (preds.foldl (fun state p => state &&& outputs p) state) =
      {slot | slot ∈ BitSet.toSet state ∧ ∀ p ∈ preds, slot ∈ BitSet.toSet (outputs p)} := by
  induction preds with
  | nil => simp
  | cons p preds ih =>
    intro state
    rw [foldl_cons, ih]
    ext slot
    simp [and_assoc]

theorem toSet_incoming (hr : Reachable f reachable predecessors) (outputs : BlockId → BitVec w)
    (b : BlockId) :
    BitSet.toSet (incoming f predecessors outputs b) =
      (initGraph f w reachable predecessors).into (fun c => BitSet.toSet (outputs c)) b := by
  unfold incoming
  ext slot
  by_cases hb : b = f.entry
  · have hslot : BitSet.contains ((paramSlots f).foldl BitSet.insert (0#w)) slot = true ↔
        slot.val ∈ paramSlots f := by
      rw [BitSet.contains_foldl_insert]
      simp
    simp only [hb, if_true]
    refine Iff.trans hslot ?_
    simp [Dataflow.Graph.into, initGraph]
  · rw [if_neg hb, toSet_meet]
    simp only [BitSet.toSet_allOnes, Dataflow.Graph.into, initGraph, Set.mem_univ, true_and, hb,
      false_implies, ne_eq, not_false_eq_true]
    refine forall_congr' (fun p => forall_congr' (fun hp => ⟨fun h _ => h, fun h => h ?_⟩))
    exact ((hr.preds p b).mp hp).1

theorem toSet_defined (hr : Reachable f reachable predecessors) (outputs : BlockId → BitVec w)
    (hb : reachable b = true) :
    BitSet.toSet (defined f (instructionsAt f b) (incoming f predecessors outputs b)) =
      (initGraph f w reachable predecessors).equations (fun c => BitSet.toSet (outputs c)) b := by
  ext slot
  rw [Dataflow.Graph.mem_equations, ← toSet_incoming f hr]
  show BitSet.contains _ slot.val = true ↔ _
  rw [contains_defined]
  simp only [slot.isLt, and_true]
  exact ⟨fun h _ => h, fun h => h hb⟩

/-! ## The worklist -/

/-- Between two turns of the queue. -/
structure Solving (reachable : BlockId → Bool) (predecessors : BlockId → List BlockId)
    (queue : List BlockId) (queued : BlockId → Bool) (outputs : BlockId → BitVec w) : Prop where
  waiting : ∀ b, queued b = true → b ∈ queue
  live : ∀ b ∈ queue, reachable b = true
  descending : Descending (initGraph f w reachable predecessors).equations
    (fun b => BitSet.toSet (outputs b)) {b | b ∈ queue}

theorem enqueueTargets_spec (targets : List BlockId) : ∀ (queue : List BlockId)
    (queued : BlockId → Bool), (∀ b, queued b = true → b ∈ queue) →
    (∀ b, (enqueueTargets targets queue queued).2 b = true →
      b ∈ (enqueueTargets targets queue queued).1) ∧
    (∀ b, b ∈ (enqueueTargets targets queue queued).1 ↔ b ∈ queue ∨ b ∈ targets) := by
  induction targets with
  | nil => exact fun queue queued h => ⟨h, by simp [enqueueTargets]⟩
  | cons target targets ih =>
    intro queue queued h
    unfold enqueueTargets
    split
    · rename_i hq
      obtain ⟨hwait, hmem⟩ := ih queue queued h
      refine ⟨hwait, fun b => ?_⟩
      rw [hmem, mem_cons]
      have hin := h target hq
      constructor
      · tauto
      · rintro (hb | rfl | hb)
        · exact .inl hb
        · exact .inl hin
        · exact .inr hb
    · have h' : ∀ b, update queued target true b = true → b ∈ queue ++ [target] := by
        intro b hb
        by_cases hbt : b = target
        · simp [hbt]
        · rw [update_of_ne hbt] at hb
          exact mem_append_left _ (h b hb)
      obtain ⟨hwait, hmem⟩ := ih _ _ h'
      refine ⟨hwait, fun b => ?_⟩
      rw [hmem, mem_cons, mem_append, mem_singleton]
      tauto

section Turn

variable {f} {queue : List BlockId} {queued : BlockId → Bool} {outputs : BlockId → BitVec w}
  {index : BlockId}

theorem Solving.pop (h : Solving f reachable predecessors (index :: queue) queued outputs) (b : BlockId)
    (hb : update queued index false b = true) : b ∈ queue := by
  by_cases hbi : b = index
  · simp [hbi] at hb
  · rw [update_of_ne hbi] at hb
    rcases mem_cons.mp (h.waiting b hb) with rfl | hb
    · exact absurd rfl hbi
    · exact hb

/-- A turn that finds the block's equation satisfied. -/
theorem Solving.skip (hr : Reachable f reachable predecessors)
    (h : Solving f reachable predecessors (index :: queue) queued outputs)
    (heq : defined f (instructionsAt f index) (incoming f predecessors outputs index) =
      outputs index) :
    Solving f reachable predecessors queue (update queued index false) outputs := by
  have hlive : reachable index = true := h.live index (by simp)
  have hval := toSet_defined f hr outputs hlive
  rw [heq] at hval
  refine ⟨h.pop, fun b hb => h.live b (mem_cons_of_mem _ hb), ?_⟩
  have hstill : update (fun b => BitSet.toSet (outputs b)) index
      ((initGraph f w reachable predecessors).equations (fun c => BitSet.toSet (outputs c)) index) =
      fun b => BitSet.toSet (outputs b) := by
    rw [← hval]
    exact update_eq_self index _
  rw [← hstill]
  refine h.descending.lower index (fun c hc hp => ?_) (fun c _ => by rw [hstill])
  simpa [hc] using hp

/-- A turn that lowers the block's value and queues its successors. -/
theorem Solving.lower (hr : Reachable f reachable predecessors)
    (h : Solving f reachable predecessors (index :: queue) queued outputs) :
    Solving f reachable predecessors
      (enqueueTargets (f.successorsAt index) queue (update queued index false)).1
      (enqueueTargets (f.successorsAt index) queue (update queued index false)).2
      (update outputs index
        (defined f (instructionsAt f index) (incoming f predecessors outputs index))) := by
  have hlive : reachable index = true := h.live index (by simp)
  obtain ⟨hwait, hmem⟩ := enqueueTargets_spec (f.successorsAt index) queue
    (update queued index false) h.pop
  refine ⟨hwait, fun b hb => ?_, ?_⟩
  · rcases (hmem b).mp hb with hb | hb
    · exact h.live b (mem_cons_of_mem _ hb)
    · obtain ⟨trace, hwalk⟩ := (hr.iff index).mp hlive
      exact (hr.iff b).mpr ⟨_, hwalk.step hb⟩
  · have hset : (fun b => BitSet.toSet (update outputs index
          (defined f (instructionsAt f index) (incoming f predecessors outputs index)) b)) =
        update (fun b => BitSet.toSet (outputs b)) index
          ((initGraph f w reachable predecessors).equations
            (fun c => BitSet.toSet (outputs c)) index) := by
      funext b
      by_cases hb : b = index
      · subst hb
        simp only [update_self]
        exact toSet_defined f hr outputs hlive
      · simp only [update_of_ne hb]
    rw [hset]
    refine (initGraph f w reachable predecessors).visit h.descending index ?_ ?_
    · intro c hc hci
      rcases mem_cons.mp hc with rfl | hc
      · exact absurd rfl hci
      · exact (hmem c).mpr (.inl hc)
    · intro c _ hpred
      exact (hmem c).mpr (.inr ((hr.preds index c).mp hpred.2).2)

end Turn

theorem solveLoop_spec (hr : Reachable f reachable predecessors) (fuel : Nat) :
    ∀ (queue : List BlockId) (queued : BlockId → Bool) (outputs : BlockId → BitVec w),
      Solving f reachable predecessors queue queued outputs →
      Ensures (solveLoop f context predecessors fuel queue queued outputs) (fun out =>
        (fun b => BitSet.toSet (out b)) = (initGraph f w reachable predecessors).equations.gfp) := by
  induction fuel with
  | zero =>
    intro queue queued outputs h
    cases queue with
    | nil => exact .pure (h.descending.eq_gfp (by simp))
    | cons index queue => exact .throw
  | succ fuel ih =>
    intro queue queued outputs h
    cases queue with
    | nil => exact .pure (h.descending.eq_gfp (by simp))
    | cons index queue =>
      refine .seq (.seq ?_)
      refine .bind (defineAll_spec f context _ _) ?_
      rintro state rfl
      split
      · rename_i heq
        exact ih _ _ _ (h.skip hr heq)
      · exact ih _ _ _ (h.lower hr)

/-- The greatest solution, from every reachable block pending. -/
theorem solve_spec (hr : Reachable f reachable predecessors) (hrng : f.InRange) (fuel : Nat) :
    Ensures (solveLoop f context predecessors fuel ((List.range f.blocks.length).filter reachable)
      reachable (fun _ => BitVec.allOnes w)) (fun out =>
        (fun b => BitSet.toSet (out b)) = (initGraph f w reachable predecessors).equations.gfp) := by
  have hqueue : ∀ b, b ∈ (List.range f.blocks.length).filter reachable ↔ reachable b = true := by
    intro b
    rw [mem_filter, mem_range]
    refine ⟨fun h => h.2, fun h => ⟨?_, h⟩⟩
    obtain ⟨trace, hwalk⟩ := (hr.iff b).mp h
    exact hrng.walk hwalk
  refine solveLoop_spec f context hr fuel _ _ _
    ⟨fun b hb => (hqueue b).mpr hb, fun b hb => (hqueue b).mp hb, ?_⟩
  have htop : (fun _ : BlockId => BitSet.toSet (BitVec.allOnes w)) = ⊤ := by
    funext b
    simp
  rw [htop]
  exact Descending.top (fun b hb slot _ hlive => absurd ((hqueue b).mpr hlive) hb)

/-! ## Paths -/

/-- The points of a block's rows. -/
def blockPoints (b : BlockId) : List Point := (List.range (f.rowsAt b).length).map (Prod.mk b)

/-- A path runs whole blocks along a walk, then a part of the block it is in. -/
theorem path_iff {trace : List Point} :
    Path f b i trace ↔ ∃ blocks, f.Walk b blocks ∧ i ≤ (f.rowsAt b).length ∧
      trace = blocks.flatMap (blockPoints f) ++ (List.range i).map (Prod.mk b) := by
  constructor
  · intro h
    induction h with
    | entry => exact ⟨[], .entry, Nat.zero_le _, by simp⟩
    | @next b i trace _ hi ih =>
      obtain ⟨blocks, hwalk, -, rfl⟩ := ih
      refine ⟨blocks, hwalk, hi, ?_⟩
      rw [range_succ, map_append, append_assoc]
      rfl
    | @jump b target trace _ hedge ih =>
      obtain ⟨blocks, hwalk, -, rfl⟩ := ih
      refine ⟨blocks ++ [b], hwalk.step hedge, Nat.zero_le _, ?_⟩
      simp [blockPoints]
  · rintro ⟨blocks, hwalk, hi, rfl⟩
    have hrows : ∀ (b' : BlockId) (blocks' : List BlockId), Path f b' 0 (blocks'.flatMap (blockPoints f)) →
        ∀ k ≤ (f.rowsAt b').length,
          Path f b' k (blocks'.flatMap (blockPoints f) ++ (List.range k).map (Prod.mk b')) := by
      intro b' blocks' h0 k
      induction k with
      | zero => intro _; simpa using h0
      | succ k ih =>
        intro hk
        have hnext := (ih (by omega)).next (by omega)
        rw [append_assoc] at hnext
        rw [range_succ, map_append]
        exact hnext
    refine hrows b blocks ?_ i hi
    clear hi
    induction hwalk with
    | entry => exact .entry
    | @step b c blocks _ hedge ih =>
      have hend := hrows b blocks ih _ (Nat.le_refl _)
      rw [flatMap_append]
      simpa [blockPoints] using hend.jump hedge

/-- The slot is a parameter's, or a row of the trace sets it. -/
def SlotWritten (slot : Nat) (trace : List Point) : Prop :=
  slot ∈ paramSlots f ∨ ∃ p ∈ trace, ∃ row, (f.rowsAt p.1)[p.2]? = some row ∧
    slot ∈ definedSlots f row.instruction

/-- The columns of every block have one length. -/
def MirFunction.Aligned : Prop := ∀ block ∈ f.blocks, block.Aligned

variable {f} in
theorem instructionsAt_eq (h : f.Aligned) (b : BlockId) :
    instructionsAt f b = (f.rowsAt b).map (·.instruction) := by
  unfold instructionsAt MirFunction.rowsAt
  cases hb : f.blocks[b]? with
  | none => rfl
  | some block => exact BasicBlock.instructions_eq (h block (mem_of_getElem? hb))

variable {f} in
/-- What a part of a block defines, as points. -/
theorem exists_take_iff (h : f.Aligned) {i slot : Nat} :
    (∃ x ∈ (instructionsAt f b).take i, slot ∈ definedSlots f x) ↔
      ∃ p ∈ (List.range i).map (Prod.mk b), ∃ row, (f.rowsAt p.1)[p.2]? = some row ∧
        slot ∈ definedSlots f row.instruction := by
  rw [instructionsAt_eq h]
  constructor
  · rintro ⟨x, hx, hslot⟩
    obtain ⟨k, hk, hget⟩ := List.mem_take_iff_getElem.mp hx
    rw [List.getElem_map] at hget
    subst hget
    rw [List.length_map] at hk
    have hk' := Nat.lt_min.mp hk
    refine ⟨(b, k), ?_, (f.rowsAt b)[k], List.getElem?_eq_getElem hk'.2, hslot⟩
    exact List.mem_map_of_mem (List.mem_range.mpr hk'.1)
  · rintro ⟨p, hp, row, hget, hslot⟩
    obtain ⟨k, hk, rfl⟩ := List.mem_map.mp hp
    refine ⟨row.instruction, ?_, hslot⟩
    obtain ⟨hlt, hrow⟩ := List.getElem?_eq_some_iff.mp hget
    rw [List.mem_take_iff_getElem]
    refine ⟨k, ?_, ?_⟩
    · rw [List.length_map]
      exact Nat.lt_min.mpr ⟨List.mem_range.mp hk, hlt⟩
    · rw [List.getElem_map, hrow]

variable {f} in
theorem mem_gen_iff (h : f.Aligned) {slot : Fin w} :
    slot ∈ (initGraph f w reachable predecessors).gen b ↔
      ∃ p ∈ blockPoints f b, ∃ row, (f.rowsAt p.1)[p.2]? = some row ∧
        slot.val ∈ definedSlots f row.instruction := by
  have hlen : (instructionsAt f b).take (f.rowsAt b).length = instructionsAt f b := by
    apply take_of_length_le
    rw [instructionsAt_eq h, length_map]
  show (∃ x ∈ instructionsAt f b, slot.val ∈ definedSlots f x) ↔ _
  rw [← hlen]
  exact exists_take_iff h

variable {f} in
/-- The solver's state at a point is what every path to it has written. -/
theorem contains_defined_iff (h : f.Aligned) (hr : Reachable f reachable predecessors)
    (hout : (fun b => BitSet.toSet (outputs b)) =
      (initGraph f w reachable predecessors).equations.gfp)
    (hb : reachable b = true) (hi : i ≤ (f.rowsAt b).length) {slot : Nat} :
    BitSet.contains (defined f ((instructionsAt f b).take i) (incoming f predecessors outputs b))
        slot = true ↔
      slot < w ∧ ∀ trace, Path f b i trace → SlotWritten f slot trace := by
  have hfix : (fun b => BitSet.toSet (outputs b)) =
      (initGraph f w reachable predecessors).equations (fun b => BitSet.toSet (outputs b)) := by
    rw [hout]
    exact (OrderHom.map_gfp _).symm
  rw [contains_defined]
  constructor
  · rintro (hin | ⟨x, hx, hslot, hlt⟩)
    · obtain ⟨hlt, hmem⟩ := BitSet.contains_iff.mp hin
      rw [toSet_incoming f hr] at hmem
      refine ⟨hlt, fun trace hpath => ?_⟩
      obtain ⟨blocks, hwalk, -, rfl⟩ := (path_iff f).mp hpath
      have hlive : ∀ c walk, f.Walk c walk → reachable c = true :=
        fun c walk hc => (hr.iff c).mpr ⟨walk, hc⟩
      have hpreds : ∀ p c, f.Edge p c → c ≠ f.entry → reachable p = true →
          c ≠ f.entry ∧ p ∈ predecessors c :=
        fun p c he hc hp => ⟨hc, (hr.preds p c).mpr ⟨hp, he⟩⟩
      rcases Dataflow.into_sound hfix hlive hpreds hwalk ⟨slot, hlt⟩ hmem with hinit | ⟨p, hp, hgen⟩
      · exact .inl hinit
      · obtain ⟨point, hpt, row, hrow, hslot⟩ := (mem_gen_iff h).mp hgen
        refine .inr ⟨point, mem_append_left _ ?_, row, hrow, hslot⟩
        exact mem_flatMap.mpr ⟨p, hp, hpt⟩
    · refine ⟨hlt, fun trace hpath => ?_⟩
      obtain ⟨blocks, -, -, rfl⟩ := (path_iff f).mp hpath
      obtain ⟨point, hpt, row, hrow, hslot⟩ := (exists_take_iff h).mp ⟨x, hx, hslot⟩
      exact .inr ⟨point, mem_append_right _ hpt, row, hrow, hslot⟩
  · rintro ⟨hlt, hall⟩
    by_cases hhere : ∃ x ∈ (instructionsAt f b).take i, slot ∈ definedSlots f x
    · obtain ⟨x, hx, hslot⟩ := hhere
      exact .inr ⟨x, hx, hslot, hlt⟩
    · refine .inl (BitSet.contains_iff.mpr ⟨hlt, ?_⟩)
      rw [toSet_incoming f hr, hout]
      have hpreds : ∀ p c, reachable c = true → (c ≠ f.entry ∧ p ∈ predecessors c) →
          reachable p = true → f.Edge p c :=
        fun p c _ hpred _ => ((hr.preds p c).mp hpred.2).2
      refine Dataflow.into_complete hpreds hb ?_
      intro blocks hwalk
      rcases hall _ ((path_iff f).mpr ⟨blocks, hwalk, hi, rfl⟩) with hinit | ⟨p, hp, row, hrow, hslot⟩
      · exact .inl hinit
      · rcases mem_append.mp hp with hp | hp
        · obtain ⟨block, hblk, hpt⟩ := mem_flatMap.mp hp
          exact .inr ⟨block, hblk, (mem_gen_iff h).mpr ⟨p, hpt, row, hrow, hslot⟩⟩
        · exact absurd ((exists_take_iff h).mpr ⟨p, hp, row, hrow, hslot⟩) hhere

/-! ## The check of every read -/

/-- What an instruction reads is set. -/
def ReadsSet {w : Nat} (state : BitVec w) (i : Instruction P) : Prop :=
  (∀ v ∈ i.inputs, BitSet.contains state v.temp = true) ∧
    ∀ dst l, i = .loadLocal dst l → BitSet.contains state (f.temps.length + l) = true

theorem checkInputs_spec (state : BitVec w) (inputs : List MirValue) :
    Ensures (checkInputs context state inputs)
      (fun _ => ∀ v ∈ inputs, BitSet.contains state v.temp = true) := by
  induction inputs with
  | nil => exact .pure (by simp)
  | cons v inputs ih =>
    refine .bind (context.ensure_spec _ _) (fun _ hv => ?_)
    exact ih.mono (fun _ h => forall_mem_cons.mpr ⟨hv, h⟩)

variable {state : BitVec w}

theorem checkInputs_fails {inputs : List MirValue}
    (h : ∀ v ∈ inputs, BitSet.contains state v.temp = true) :
    Fails (checkInputs context state inputs) E := by
  induction inputs with
  | nil => exact .pure
  | cons v inputs ih =>
    obtain ⟨hv, hrest⟩ := forall_mem_cons.mp h
    exact .seq (context.ensure_fails hv _) (fun _ => ih hrest)

theorem checkLocalRead_spec (state : BitVec w) (i : Instruction P) :
    Ensures (checkLocalRead f context state i) (fun _ => ∀ dst l, i = .loadLocal dst l →
      BitSet.contains state (f.temps.length + l) = true) := by
  unfold checkLocalRead
  split
  · rename_i dst l
    refine (context.ensure_spec _ _).mono (fun _ hset dst' l' heq => ?_)
    obtain ⟨-, rfl⟩ := Instruction.loadLocal.inj heq
    exact hset
  · rename_i hnot
    exact .pure (fun dst l heq => absurd heq (hnot dst l))

theorem checkLocalRead_fails {i : Instruction P}
    (h : ∀ dst l, i = .loadLocal dst l → BitSet.contains state (f.temps.length + l) = true)
    : Fails (checkLocalRead f context state i) E := by
  unfold checkLocalRead
  split
  · rename_i dst l
    exact context.ensure_fails (h dst l rfl) _
  · exact .pure

/-- What the code reads is set, after what comes before it. -/
def CodeReads (state : BitVec w) (code : List (Instruction P)) : Prop :=
  ∀ k i, code[k]? = some i → ReadsSet f (defined f (code.take k) state) i

theorem codeReads_cons {i : Instruction P} :
    CodeReads f state (i :: code) ↔ ReadsSet f state i ∧ CodeReads f (define f i state) code := by
  constructor
  · intro h
    exact ⟨h 0 i rfl, fun k x hx => h (k + 1) x (by simpa using hx)⟩
  · rintro ⟨hi, hrest⟩ k x hx
    cases k with
    | zero =>
      obtain rfl : i = x := by simpa using hx
      exact hi
    | succ k => exact hrest k x (by simpa using hx)

theorem checkReads_spec (block : BasicBlock P) (code : List (Instruction P)) :
    ∀ (index : Nat) (state : BitVec w),
      Ensures (checkReads f context block code index state)
        (fun out => out = defined f code state ∧ CodeReads f state code) := by
  induction code with
  | nil => exact fun index state => .pure ⟨rfl, by simp [CodeReads]⟩
  | cons i code ih =>
    intro index state
    refine .seq ?_
    refine .bind (checkInputs_spec _ state i.inputs) (fun _ hinps => ?_)
    refine .bind (checkLocalRead_spec f _ state i) (fun _ hlocal => ?_)
    refine (ih _ _).mono ?_
    rintro out ⟨hout, hrd⟩
    exact ⟨hout, (codeReads_cons f).mpr ⟨⟨hinps, hlocal⟩, hrd⟩⟩

theorem checkReads_fails (block : BasicBlock P) (code : List (Instruction P)) :
    ∀ (index : Nat) (state : BitVec w), CodeReads f state code →
      Fails (checkReads f context block code index state) MirVerificationError.Resource := by
  induction code with
  | nil => exact fun index state _ => .pure
  | cons i code ih =>
    intro index state h
    obtain ⟨⟨hinps, hlocal⟩, hrest⟩ := (codeReads_cons f).mp h
    refine Fails.seq (Context.work_fails _ _) (fun _ => ?_)
    refine .seq (checkInputs_fails _ hinps) (fun _ => ?_)
    exact .seq (checkLocalRead_fails f _ hlocal) (fun _ => ih _ _ hrest)

/-- What a block reads is set, its terminator included. -/
def BlockReads (state : BitVec w) (block : BasicBlock P) : Prop :=
  CodeReads f state block.instructions ∧ ∀ v, block.terminator.bind (·.input) = some v →
    BitSet.contains (defined f block.instructions state) v.temp = true

theorem checkBlock_spec (state : BitVec w) (block : BasicBlock P) :
    Ensures (checkBlock f context state block) (fun _ => BlockReads f state block) := by
  refine .bind (checkReads_spec f context block block.instructions 0 state) ?_
  rintro out ⟨rfl, hrd⟩
  refine (checkInputs_spec _ _ _).mono (fun _ h => ⟨hrd, fun v hv => h v ?_⟩)
  simp [hv]

theorem checkBlock_fails {block : BasicBlock P} (h : BlockReads f state block) :
    Fails (checkBlock f context state block) MirVerificationError.Resource := by
  refine .bind (checkReads_fails f context block block.instructions 0 state h.1)
    (checkReads_spec f context block block.instructions 0 state) ?_
  rintro out ⟨rfl, -⟩
  refine checkInputs_fails _ (fun v hv => h.2 v ?_)
  simpa using hv

theorem checkFlowBlocks_spec (outputs : BlockId → BitVec w) (blocks : List (BasicBlock P)) :
    ∀ (index : Nat) (entries : BlockId → BitVec w),
      Ensures (checkFlowBlocks f context reachable predecessors outputs blocks index entries)
        (fun _ => ∀ (k : Nat) block, blocks[k]? = some block → reachable (index + k) = true →
          BlockReads f (incoming f predecessors outputs (index + k)) block) := by
  induction blocks with
  | nil => exact fun index entries => .pure (by simp)
  | cons first blocks ih =>
    intro index entries
    have hcons : ∀ {rest : VerifyM (BlockId → BitVec w)}, Ensures rest (fun _ => ∀ (k : Nat) block,
          blocks[k]? = some block → reachable (index + 1 + k) = true →
          BlockReads f (incoming f predecessors outputs (index + 1 + k)) block) →
        (reachable index = true →
          BlockReads f (incoming f predecessors outputs index) first) →
        Ensures rest (fun _ => ∀ (k : Nat) block, (first :: blocks)[k]? = some block →
          reachable (index + k) = true →
          BlockReads f (incoming f predecessors outputs (index + k)) block) := by
      intro rest hrest hfst
      refine hrest.mono (fun _ h k block hget hk => ?_)
      cases k with
      | zero =>
        obtain rfl : first = block := by simpa using hget
        exact hfst hk
      | succ k =>
        rw [show index + (k + 1) = index + 1 + k by omega] at hk ⊢
        exact h k block (by simpa using hget) hk
    unfold checkFlowBlocks
    split
    · refine .seq ?_
      refine .bind (checkBlock_spec f _ _ first) (fun _ hfst => ?_)
      exact hcons (ih (index + 1) _) (fun _ => hfst)
    · rename_i hnot
      exact hcons (ih (index + 1) _) (fun h => absurd h hnot)

theorem checkFlowBlocks_fails (outputs : BlockId → BitVec w) (blocks : List (BasicBlock P)) :
    ∀ (index : Nat) (entries : BlockId → BitVec w),
      (∀ (k : Nat) block, blocks[k]? = some block → reachable (index + k) = true →
        BlockReads f (incoming f predecessors outputs (index + k)) block) →
      Fails (checkFlowBlocks f context reachable predecessors outputs blocks index entries)
        MirVerificationError.Resource := by
  induction blocks with
  | nil => exact fun index entries _ => .pure
  | cons first blocks ih =>
    intro index entries h
    have hrest : ∀ (k : Nat) block, blocks[k]? = some block → reachable (index + 1 + k) = true →
        BlockReads f (incoming f predecessors outputs (index + 1 + k)) block := by
      intro k block hget hk
      rw [show index + 1 + k = index + (k + 1) by omega] at hk ⊢
      exact h (k + 1) block (by simpa using hget) hk
    unfold checkFlowBlocks
    split
    · rename_i hr
      refine Fails.seq (Context.work_fails _ _) (fun _ => ?_)
      refine .seq (checkBlock_fails f _ (h 0 first rfl hr)) (fun _ => ?_)
      exact ih (index + 1) _ hrest
    · exact ih (index + 1) _ hrest

/-! ## The check against the paths -/

/-- Every path has written what it reads. -/
structure PathReads : Prop where
  row : ∀ b i trace row, Path f b i trace → (f.rowsAt b)[i]? = some row →
    (∀ v ∈ row.instruction.inputs, SlotWritten f v.temp trace) ∧
      ∀ dst l, row.instruction = .loadLocal dst l → SlotWritten f (f.temps.length + l) trace
  terminator : ∀ b trace v, Path f b (f.rowsAt b).length trace →
    (f.terminatorAt b).bind (·.input) = some v → SlotWritten f v.temp trace

/-- What is read has a bit. -/
structure ReadsInRange : Prop where
  temps : ∀ block ∈ f.blocks, ∀ i ∈ block.instructions, ∀ v ∈ i.inputs, v.temp < f.temps.length
  locals : ∀ block ∈ f.blocks, ∀ i ∈ block.instructions, ∀ dst l, i = .loadLocal dst l →
    l < f.locals.length
  terminator : ∀ block ∈ f.blocks, ∀ v, block.terminator.bind (·.input) = some v →
    v.temp < f.temps.length

theorem slots_le_width : f.temps.length + f.locals.length ≤ f.width := by
  unfold MirFunction.width MirFunction.words
  omega

section Solution

variable {f} (h : f.Aligned) (hr : Reachable f reachable predecessors)
  {outputs : BlockId → BitVec w}
  (hout : (fun b => BitSet.toSet (outputs b)) =
    (initGraph f w reachable predecessors).equations.gfp)
  {b : BlockId} (hb : reachable b = true) {block : BasicBlock P} (hblk : f.blocks[b]? = some block)

include h hblk in
theorem instructions_of_rows : block.instructions = (f.rowsAt b).map (·.instruction) := by
  have heq := instructionsAt_eq h b
  simpa [instructionsAt, hblk] using heq

include h hr hout hb hblk in
theorem contains_block_iff (hi : i ≤ (f.rowsAt b).length) (slot : Nat) :
    BitSet.contains (defined f (block.instructions.take i) (incoming f predecessors outputs b))
        slot = true ↔
      slot < w ∧ ∀ trace, Path f b i trace → SlotWritten f slot trace := by
  have heq : block.instructions = instructionsAt f b := by simp [instructionsAt, hblk]
  rw [heq]
  exact contains_defined_iff h hr hout hb hi

include h hr hout hb hblk in
theorem pathReads_of_blockReads
    (hrd : BlockReads f (incoming f predecessors outputs b) block) :
    (∀ i trace row, Path f b i trace → (f.rowsAt b)[i]? = some row →
      (∀ v ∈ row.instruction.inputs, SlotWritten f v.temp trace) ∧
        ∀ dst l, row.instruction = .loadLocal dst l →
          SlotWritten f (f.temps.length + l) trace) ∧
      ∀ trace v, Path f b (f.rowsAt b).length trace →
        (f.terminatorAt b).bind (·.input) = some v → SlotWritten f v.temp trace := by
  have hcode := instructions_of_rows h hblk
  refine ⟨fun i trace row hpath hrow => ?_, fun trace v hpath hv => ?_⟩
  · have hi : i < (f.rowsAt b).length := (List.getElem?_eq_some_iff.mp hrow).1
    have hget : block.instructions[i]? = some row.instruction := by
      rw [hcode, List.getElem?_map, hrow]
      rfl
    obtain ⟨hinps, hlocal⟩ := hrd.1 i row.instruction hget
    have hset := contains_block_iff h hr hout hb hblk (Nat.le_of_lt hi)
    refine ⟨fun v hv => ?_, fun dst l hl => ?_⟩
    · exact ((hset v.temp).mp (hinps v hv)).2 trace hpath
    · exact ((hset _).mp (hlocal dst l hl)).2 trace hpath
  · have hv' : block.terminator.bind (·.input) = some v := by
      simpa [MirFunction.terminatorAt, hblk] using hv
    have hset := hrd.2 v hv'
    have hall : block.instructions.take (f.rowsAt b).length = block.instructions :=
      List.take_of_length_le (by simp [hcode])
    rw [← hall, contains_block_iff h hr hout hb hblk (Nat.le_refl _)] at hset
    exact hset.2 trace hpath

include h hr hout hb hblk in
theorem blockReads_of_pathReads (hw : f.temps.length + f.locals.length ≤ w)
    (hrng : ReadsInRange f) (hpth : PathReads f) :
    BlockReads f (incoming f predecessors outputs b) block := by
  have hcode := instructions_of_rows h hblk
  have hmem : block ∈ f.blocks := List.mem_of_getElem? hblk
  refine ⟨fun k i hget => ?_, fun v hv => ?_⟩
  · have hin : i ∈ block.instructions := List.mem_of_getElem? hget
    obtain ⟨row, hrow, rfl⟩ : ∃ row, (f.rowsAt b)[k]? = some row ∧ row.instruction = i := by
      rw [hcode, List.getElem?_map] at hget
      simpa using hget
    have hk : k < (f.rowsAt b).length := (List.getElem?_eq_some_iff.mp hrow).1
    refine ⟨fun v hv => ?_, fun dst l hl => ?_⟩
    · rw [contains_block_iff h hr hout hb hblk (Nat.le_of_lt hk)]
      have hlt := hrng.temps block hmem _ hin v hv
      refine ⟨lt_of_lt_of_le hlt (Nat.le_trans (Nat.le_add_right _ _) hw), ?_⟩
      exact fun trace hpath => (hpth.row b k trace row hpath hrow).1 v hv
    · rw [contains_block_iff h hr hout hb hblk (Nat.le_of_lt hk)]
      have hlt := hrng.locals block hmem _ hin dst l hl
      refine ⟨lt_of_lt_of_le (Nat.add_lt_add_left hlt _) hw, ?_⟩
      exact fun trace hpath => (hpth.row b k trace row hpath hrow).2 dst l hl
  · have hall : block.instructions.take (f.rowsAt b).length = block.instructions :=
      List.take_of_length_le (by simp [hcode])
    rw [← hall, contains_block_iff h hr hout hb hblk (Nat.le_refl _)]
    have hlt := hrng.terminator block hmem v hv
    refine ⟨lt_of_lt_of_le hlt (Nat.le_trans (Nat.le_add_right _ _) hw),
      fun trace hpath => hpth.terminator b trace v hpath ?_⟩
    simpa [MirFunction.terminatorAt, hblk] using hv

end Solution

/-- What an accepted function reads, every path to it has written. -/
theorem verifyFlow_reads (h : f.Aligned) (hrng : f.InRange) :
    Ensures (verifyFlow f context) (fun _ => PathReads f) := by
  refine .bind (reachLoop_spec f context _ _ _ _ (searching_start f)) ?_
  rintro ⟨reachable, predecessors⟩ hr
  refine .bind (solve_spec f context hr hrng _) (fun outputs hout => ?_)
  refine .bind (checkFlowBlocks_spec f context outputs f.blocks 0 _) (fun entries hblks => ?_)
  have hpth : ∀ b i trace, Path f b i trace → reachable b = true ∧
      ∃ block, f.blocks[b]? = some block ∧ BlockReads f (incoming f predecessors outputs b) block := by
    intro b i trace hpath
    obtain ⟨walk, hwalk, -, -⟩ := (path_iff f).mp hpath
    have hb : reachable b = true := (hr.iff b).mpr ⟨walk, hwalk⟩
    have hget := getElem?_eq_getElem (hrng.walk hwalk)
    refine ⟨hb, _, hget, ?_⟩
    have hrd := hblks b _ hget
    rw [Nat.zero_add] at hrd
    exact hrd hb
  refine .pure ⟨fun b i trace row hpath hrow => ?_, fun b trace v hpath hv => ?_⟩
  · obtain ⟨hb, block, hblk, hrd⟩ := hpth b i trace hpath
    exact (pathReads_of_blockReads h hr hout hb hblk hrd).1 i trace row hpath hrow
  · obtain ⟨hb, block, hblk, hrd⟩ := hpth b _ trace hpath
    exact (pathReads_of_blockReads h hr hout hb hblk hrd).2 trace v hpath hv

theorem reachLoop_fails (fuel : Nat) : ∀ pending reachable predecessors,
    Fails (reachLoop f context fuel pending reachable predecessors)
      MirVerificationError.Resource := by
  induction fuel with
  | zero =>
    intro pending reachable predecessors
    cases pending with
    | nil => exact .pure
    | cons id pending => exact .throw trivial
  | succ fuel ih =>
    intro pending reachable predecessors
    cases pending with
    | nil => exact .pure
    | cons id pending =>
      refine .seq (context.work_fails 1) (fun _ => ?_)
      split
      · exact ih _ _ _
      · exact ih _ _ _

theorem defineAll_fails (code : List (Instruction P)) : ∀ state : BitVec w,
    Fails (defineAll f context code state) MirVerificationError.Resource := by
  induction code with
  | nil => exact fun state => .pure
  | cons i code ih => exact fun state => .seq (context.work_fails 1) (fun _ => ih _)

theorem solveLoop_fails (fuel : Nat) :
    ∀ (queue : List BlockId) (queued : BlockId → Bool) (outputs : BlockId → BitVec w),
      Fails (solveLoop f context predecessors fuel queue queued outputs)
        MirVerificationError.Resource := by
  induction fuel with
  | zero =>
    intro queue queued outputs
    cases queue with
    | nil => exact .pure
    | cons index queue => exact .throw trivial
  | succ fuel ih =>
    intro queue queued outputs
    cases queue with
    | nil => exact .pure
    | cons index queue =>
      refine .seq context.checkCancel_fails (fun _ => ?_)
      refine .seq (context.work_fails _) (fun _ => ?_)
      refine .seq (defineAll_fails f context _ _) (fun state => ?_)
      split
      · exact ih _ _ _
      · exact ih _ _ _

/-- When every path has written what it reads, nothing but a resource limit stops the check. -/
theorem verifyFlow_fails (h : f.Aligned) (hrng : f.InRange) (hrd : ReadsInRange f)
    (hpth : PathReads f) : Fails (verifyFlow f context) MirVerificationError.Resource := by
  refine .bind (reachLoop_fails f context _ _ _ _)
    (reachLoop_spec f context _ _ _ _ (searching_start f)) ?_
  rintro ⟨reachable, predecessors⟩ hr
  refine .bind (solveLoop_fails f context _ _ _ _) (solve_spec f context hr hrng _)
    (fun outputs hout => ?_)
  refine .seq (checkFlowBlocks_fails f context outputs f.blocks 0 _ ?_) (fun _ => .pure)
  intro b block hblk hb
  rw [Nat.zero_add] at hb ⊢
  exact blockReads_of_pathReads h hr hout hb hblk (slots_le_width f) hrd hpth

end Flow

end Kagari.Mir
