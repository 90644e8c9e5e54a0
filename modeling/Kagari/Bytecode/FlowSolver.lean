import Kagari.Bytecode.Flow
import Kagari.Lib.Dataflow

/-!
# The flow solver and its equations

The initialization equations of a control-flow graph, as a monotone operator on assignments of
slot sets to blocks (`equations`), and the solver against them:

- `reachability_spec`: the marked blocks are those a path from block 0 reaches
- `postorder_spec`: the depth-first order lists exactly these
- `propagate_eq_gfp`: whatever order the reachable blocks are visited in, what `propagate`
  returns is the greatest fixed point
-/

namespace Kagari.Bytecode

open Lib Function List

variable {w : Nat}

/-! ## Views of a block list -/

def succs (blocks : List (Block w)) (b : Nat) : List Nat := (blocks[b]?).elim [] (·.successors)

def preds (blocks : List (Block w)) (b : Nat) : List Nat := (blocks[b]?).elim [] (·.predecessors)

def defs (blocks : List (Block w)) (b : Nat) : BitVec w := (blocks[b]?).elim 0 (·.defines)

def isReachable (blocks : List (Block w)) (b : Nat) : Bool := (blocks[b]?).any (·.reachable)

def initializedAt (blocks : List (Block w)) (b : Nat) : BitVec w :=
  (blocks[b]?).elim (BitVec.allOnes w) (·.initialized)

/-- What no phase after the graph changes. -/
def Block.shape (block : Block w) : Nat × Nat × List Nat × List Nat × BitVec w :=
  (block.start, block.stop, block.successors, block.predecessors, block.defines)

/-- The graph's edges go both ways, and lead to blocks. -/
structure Wired (blocks : List (Block w)) : Prop where
  inRange : ∀ b, ∀ s ∈ succs blocks b, s < blocks.length
  back : ∀ b s, b ∈ preds blocks s ↔ s ∈ succs blocks b ∧ s < blocks.length

/-- A path from the entry block. -/
inductive Reaches (blocks : List (Block w)) : Nat → Prop
  | entry : Reaches blocks 0
  | step {b s : Nat} : Reaches blocks b → s ∈ succs blocks b → Reaches blocks s

variable {b index : Nat}

section Shape

variable {blocks blocks' : List (Block w)}

theorem length_of_shape (h : blocks'.map Block.shape = blocks.map Block.shape) :
    blocks'.length = blocks.length := by
  simpa using congrArg List.length h

private theorem getElem?_shape (h : blocks'.map Block.shape = blocks.map Block.shape) (b : Nat) :
    (blocks'[b]?).map Block.shape = (blocks[b]?).map Block.shape := by
  rw [← getElem?_map, ← getElem?_map, h]

theorem view_of_shape {α : Type} (h : blocks'.map Block.shape = blocks.map Block.shape)
    (view : Nat × Nat × List Nat × List Nat × BitVec w → α) (default : α) (b : Nat) :
    (blocks'[b]?).elim default (fun block => view block.shape) =
      (blocks[b]?).elim default (fun block => view block.shape) := by
  have hget := congrArg (fun o => Option.elim o default view) (getElem?_shape h b)
  simpa [Option.elim_map, comp_def] using hget

theorem succs_of_shape (h : blocks'.map Block.shape = blocks.map Block.shape) :
    succs blocks' = succs blocks :=
  funext (view_of_shape h (fun shape => shape.2.2.1) [])

theorem preds_of_shape (h : blocks'.map Block.shape = blocks.map Block.shape) :
    preds blocks' = preds blocks :=
  funext (view_of_shape h (fun shape => shape.2.2.2.1) [])

theorem defs_of_shape (h : blocks'.map Block.shape = blocks.map Block.shape) :
    defs blocks' = defs blocks :=
  funext (view_of_shape h (fun shape => shape.2.2.2.2) 0)

theorem Wired.of_shape (hw : Wired blocks)
    (h : blocks'.map Block.shape = blocks.map Block.shape) : Wired blocks' := by
  refine ⟨fun b s hs => ?_, fun b s => ?_⟩
  · rw [length_of_shape h]
    rw [succs_of_shape h] at hs
    exact hw.inRange b s hs
  · rw [preds_of_shape h, succs_of_shape h, length_of_shape h]
    exact hw.back b s

theorem Reaches.of_shape (h : blocks'.map Block.shape = blocks.map Block.shape)
    (hr : Reaches blocks b) : Reaches blocks' b := by
  induction hr with
  | entry => exact .entry
  | step _ hs ih =>
    refine .step ih ?_
    rw [succs_of_shape h]
    exact hs

end Shape

theorem blockAt_spec (blocks : List (Block w)) (index : Nat) :
    Ensures (blockAt blocks index) (fun block => blocks[index]? = some block) := by
  unfold blockAt
  split
  · rename_i block hblk
    exact .pure hblk
  · exact .throw

/-! ## The equations -/

variable {block : Block w} {blocks : List (Block w)}

section Equations

variable {P : Type} (function : BytecodeFunction P)

/-- The graph of the initialization equations: the parameters are initialized at the entry block,
and every block initializes what it writes. A block that is never reached has no equation. -/
def flowGraph (blocks : List (Block w)) : Dataflow.Graph Nat (Fin w) where
  entry := 0
  init := BitSet.toSet (function.metadata.parameterSlots.foldl BitSet.insert 0)
  live := {b | isReachable blocks b = true}
  preds b := {p | p ∈ preds blocks b}
  gen b := BitSet.toSet (defs blocks b)

/-- The initialization equations of all blocks, as one monotone operator. -/
def equations (blocks : List (Block w)) : (Nat → Set (Fin w)) →o (Nat → Set (Fin w)) :=
  (flowGraph function blocks).equations

/-- The assignment that the blocks hold. -/
def assignment (blocks : List (Block w)) (b : Nat) : Set (Fin w) := BitSet.toSet (initializedAt blocks b)

theorem toSet_meet (blocks : List (Block w)) (edges : List Nat) (state : BitVec w) :
    BitSet.toSet (edges.foldl (fun state previous =>
      match blocks[previous]? with
      | some block => if block.reachable then state &&& block.initialized else state
      | none => state) state) =
    {slot | slot ∈ BitSet.toSet state ∧
      ∀ p ∈ edges, isReachable blocks p = true → slot ∈ assignment blocks p} := by
  induction edges generalizing state with
  | nil => simp
  | cons p edges ih =>
    rw [foldl_cons, ih]
    ext slot
    simp only [Set.mem_ofPred_eq, forall_mem_cons, assignment, isReachable, initializedAt]
    cases hp : blocks[p]? with
    | none => simp
    | some block =>
      by_cases hr : block.reachable = true
      · simp [hr, and_assoc]
      · simp [hr]

theorem toSet_incoming
    (hb : blocks[b]? = some block) :
    BitSet.toSet (incoming function blocks b block) =
      (flowGraph function blocks).into (assignment blocks) b := by
  have hpreds : preds blocks b = block.predecessors := by simp [preds, hb]
  refine (toSet_meet blocks block.predecessors _).trans ?_
  rw [← hpreds]
  ext slot
  by_cases h0 : b = 0
  · subst h0
    simp [Dataflow.Graph.into, flowGraph]
  · simp [Dataflow.Graph.into, flowGraph, h0]

theorem toSet_transferOf
    (hb : blocks[b]? = some block) (hr : isReachable blocks b = true) :
    BitSet.toSet (transferOf function .initialization blocks b block) =
      equations function blocks (assignment blocks) b := by
  have hdefs : defs blocks b = block.defines := by simp [defs, hb]
  show BitSet.toSet (incoming function blocks b block ||| block.defines) = _
  rw [BitSet.toSet_or, toSet_incoming function hb, ← hdefs]
  ext slot
  exact ⟨fun h _ => h, fun h => h hr⟩

end Equations

/-! ## Reachability -/

section Reachability

variable {P : Type} (function : BytecodeFunction P)

/-- Only marks differ. -/
structure SameValues (blocks' blocks : List (Block w)) : Prop where
  shape : blocks'.map Block.shape = blocks.map Block.shape
  initialized : blocks'.map (·.initialized) = blocks.map (·.initialized)

theorem SameValues.trans {blocks blocks' blocks'' : List (Block w)}
    (h : SameValues blocks'' blocks') (h' : SameValues blocks' blocks) :
    SameValues blocks'' blocks :=
  ⟨h.shape.trans h'.shape, h.initialized.trans h'.initialized⟩

theorem SameValues.markReachable (blocks : List (Block w)) (index : Nat) :
    SameValues (markReachable blocks index) blocks := by
  constructor
  · apply ext_getElem?
    intro i
    simp only [Bytecode.markReachable, getElem?_map, getElem?_modify]
    split <;> cases blocks[i]? <;> rfl
  · apply ext_getElem?
    intro i
    simp only [Bytecode.markReachable, getElem?_map, getElem?_modify]
    split <;> cases blocks[i]? <;> rfl

variable {blocks : List (Block w)}

theorem isReachable_markReachable
    (hlt : index < blocks.length) (b : Nat) :
    isReachable (markReachable blocks index) b = true ↔ b = index ∨ isReachable blocks b = true := by
  unfold isReachable markReachable
  rw [getElem?_modify]
  by_cases hb : index = b
  · subst hb
    simp [getElem?_eq_getElem hlt]
  · simp [hb, Ne.symm hb]

/-- The blocks not yet marked. -/
def unmarked (blocks : List (Block w)) : Nat := blocks.countP (!·.reachable)

theorem unmarked_markReachable {block : Block w}
    (hblk : blocks[index]? = some block) (hnew : block.reachable = false) :
    unmarked (markReachable blocks index) + 1 = unmarked blocks := by
  unfold unmarked markReachable
  induction blocks generalizing index with
  | nil => simp at hblk
  | cons first blocks ih =>
    cases index with
    | zero =>
      obtain rfl : first = block := by simpa using hblk
      simp [hnew]
    | succ index =>
      have hrest := ih (by simpa using hblk)
      rw [modify_succ_cons, countP_cons, countP_cons]
      omega

/-- What a run of the marking has done, for the graph `blocks` it started with. -/
structure Marking (blocks current : List (Block w)) (pending : List Nat) : Prop where
  same : SameValues current blocks
  sound : ∀ b, isReachable current b = true → Reaches blocks b
  waiting : ∀ b ∈ pending, isReachable current b = true
  entry : isReachable current 0 = true

theorem visitSuccessors_spec (edges : List Nat) :
    ∀ (pending : List Nat) (current : List (Block w)), Marking blocks current pending →
      (∀ next ∈ edges, Reaches blocks next) →
      Ensures (visitSuccessors function edges pending current) (fun (pending', current') =>
        Marking blocks current' pending' ∧
        (∀ next ∈ edges, isReachable current' next = true) ∧
        (∀ b, isReachable current b = true → isReachable current' b = true) ∧
        (∀ b, isReachable current' b = true → isReachable current b = true ∨ b ∈ pending') ∧
        pending ⊆ pending' ∧
        pending'.length + unmarked current' = pending.length + unmarked current) := by
  induction edges with
  | nil =>
    intro pending current h _
    exact .pure ⟨h, by simp, fun _ hb => hb, fun _ hb => .inl hb, List.Subset.refl _, rfl⟩
  | cons next edges ih =>
    intro pending current h hrch
    obtain ⟨hnext, hedg⟩ := List.forall_mem_cons.mp hrch
    refine .seq ?_
    refine .bind (blockAt_spec current next) (fun block hblk => ?_)
    split
    · rename_i hmrk
      refine (ih pending current h hedg).mono ?_
      rintro ⟨pending', current'⟩ ⟨hinv, hall, hkeep, hnew, hsub, hcnt⟩
      refine ⟨hinv, ?_, hkeep, hnew, hsub, hcnt⟩
      refine List.forall_mem_cons.mpr ⟨hkeep next ?_, hall⟩
      simp [isReachable, hblk, hmrk]
    · rename_i hfr
      have hlt : next < current.length := (List.getElem?_eq_some_iff.mp hblk).1
      have hmark := isReachable_markReachable hlt
      have hcnts : unmarked (markReachable current next) + 1 = unmarked current :=
        unmarked_markReachable hblk (by simpa using hfr)
      have hinv : Marking blocks (markReachable current next) (next :: pending) := by
        refine ⟨(SameValues.markReachable current next).trans h.same, fun b hb => ?_,
          fun b hb => ?_, (hmark 0).mpr (.inr h.entry)⟩
        · rcases (hmark b).mp hb with rfl | hb
          · exact hnext
          · exact h.sound b hb
        · rcases List.mem_cons.mp hb with rfl | hb
          · exact (hmark b).mpr (.inl rfl)
          · exact (hmark b).mpr (.inr (h.waiting b hb))
      refine (ih _ _ hinv hedg).mono ?_
      rintro ⟨pending', current'⟩ ⟨hinv', hall, hkeep, hnew, hsub, hcnt⟩
      refine ⟨hinv', List.forall_mem_cons.mpr ⟨hkeep next ((hmark next).mpr (.inl rfl)), hall⟩,
        fun b hb => hkeep b ((hmark b).mpr (.inr hb)), fun b hb => ?_,
        fun b hb => hsub (List.mem_cons_of_mem _ hb), ?_⟩
      · rcases hnew b hb with hb | hb
        · rcases (hmark b).mp hb with rfl | hb
          · exact .inr (hsub (by simp))
          · exact .inl hb
        · exact .inr hb
      · rw [List.length_cons] at hcnt
        show pending'.length + unmarked current' = _
        omega

theorem reachLoop_spec (fuel : Nat) :
    ∀ (pending : List Nat) (current : List (Block w)), Marking blocks current pending →
      (∀ b, isReachable current b = true → b ∉ pending →
        ∀ next ∈ succs blocks b, isReachable current next = true) →
      pending.length + unmarked current ≤ fuel →
      Ensures (reachLoop function fuel pending current) (fun out =>
        SameValues out blocks ∧ ∀ b, isReachable out b = true ↔ Reaches blocks b) := by
  have hdone : ∀ current : List (Block w), Marking blocks current [] →
      (∀ b, isReachable current b = true → b ∉ ([] : List Nat) →
        ∀ next ∈ succs blocks b, isReachable current next = true) →
      SameValues current blocks ∧ ∀ b, isReachable current b = true ↔ Reaches blocks b := by
    intro current h hclos
    refine ⟨h.same, fun b => ⟨h.sound b, fun hr => ?_⟩⟩
    induction hr with
    | entry => exact h.entry
    | step _ hs ih => exact hclos _ ih (by simp) _ hs
  induction fuel with
  | zero =>
    intro pending current h hclos hfuel
    cases pending with
    | nil => exact .pure (hdone current h hclos)
    | cons index pending => simp at hfuel
  | succ fuel ih =>
    intro pending current h hclos hfuel
    cases pending with
    | nil => exact .pure (hdone current h hclos)
    | cons index pending =>
      refine .bind (blockAt_spec current index) (fun block hblk => ?_)
      have hidx : isReachable current index = true := h.waiting index (by simp)
      have hsuccs : succs blocks index = block.successors := by
        rw [← succs_of_shape h.same.shape]
        simp [succs, hblk]
      refine .bind (visitSuccessors_spec function block.successors pending current
        ⟨h.same, h.sound, fun b hb => h.waiting b (mem_cons_of_mem _ hb), h.entry⟩ ?_) ?_
      · intro next hnext
        rw [← hsuccs] at hnext
        exact .step (h.sound index hidx) hnext
      · rintro ⟨pending', current'⟩ ⟨hinv, hall, hkeep, hnew, hsub, hcnt⟩
        refine ih _ _ hinv (fun b hb hnot next hnext => ?_) ?_
        · rcases hnew b hb with hold | hpend
          · by_cases hbi : b = index
            · subst hbi
              rw [hsuccs] at hnext
              exact hall next hnext
            · have hnotold : b ∉ index :: pending := by
                intro hmem
                rcases mem_cons.mp hmem with rfl | hmem
                · exact hbi rfl
                · exact hnot (hsub hmem)
              exact hkeep next (hclos b hold hnotold next hnext)
          · exact absurd hpend hnot
        · rw [length_cons] at hfuel
          have hcnt' : pending'.length + unmarked current' = pending.length + unmarked current :=
            hcnt
          omega

/-- The marked blocks are those that a path from the entry block reaches. -/
theorem reachability_spec
    (hfr : ∀ block ∈ blocks, block.reachable = false) :
    Ensures (reachability function blocks) (fun out =>
      SameValues out blocks ∧ ∀ b, isReachable out b = true ↔ Reaches blocks b) := by
  refine .bind (blockAt_spec blocks 0) (fun block hblk => ?_)
  have hlt : 0 < blocks.length := (List.getElem?_eq_some_iff.mp hblk).1
  have hmark := isReachable_markReachable hlt
  have hnone : ∀ b, isReachable blocks b ≠ true := by
    intro b hb
    obtain ⟨found, hfnd, hr⟩ := (Option.any_eq_true _ _).mp hb
    simp [hfr found (List.mem_of_getElem? hfnd)] at hr
  refine reachLoop_spec function _ _ _ ⟨.markReachable blocks 0, fun b hb => ?_,
    fun b hb => ?_, (hmark 0).mpr (.inl rfl)⟩ (fun b hb hnot => ?_) ?_
  · rcases (hmark b).mp hb with rfl | hb
    · exact .entry
    · exact absurd hb (hnone b)
  · exact (hmark b).mpr (.inl (List.mem_singleton.mp hb))
  · rcases (hmark b).mp hb with rfl | hb
    · exact absurd (List.mem_singleton.mpr rfl) hnot
    · exact absurd hb (hnone b)
  · have hcnt := unmarked_markReachable hblk (hfr block (List.mem_of_getElem? hblk))
    have hle : unmarked blocks ≤ blocks.length := List.countP_le_length
    simp only [List.length_singleton]
    omega

end Reachability

/-! ## The depth-first order -/

section Postorder

variable {P : Type} (function : BytecodeFunction P)

/-- A depth-first search under way: a block on the stack has visited the edges before the one it
stands at, and a block of the order has visited them all. -/
structure Search (blocks : List (Block w)) (stack : List (Nat × Nat)) (visited : List Bool)
    (order : List Nat) : Prop where
  len : visited.length = blocks.length
  seen : ∀ b, visited[b]? = some true ↔ b ∈ order ∨ b ∈ stack.map Prod.fst
  sound : ∀ b, visited[b]? = some true → Reaches blocks b
  entry : visited[0]? = some true
  done : ∀ b ∈ order, ∀ next ∈ succs blocks b, visited[next]? = some true
  partly : ∀ frame ∈ stack, ∀ next ∈ (succs blocks frame.1).take frame.2,
    visited[next]? = some true

namespace Search

variable {blocks : List (Block w)} {stack : List (Nat × Nat)} {visited : List Bool}
  {order : List Nat} {index edge next : Nat}

/-- An edge to a block that was visited before. -/
theorem skip (h : Search blocks ((index, edge) :: stack) visited order)
    (hnext : (succs blocks index)[edge]? = some next) (hold : visited[next]? = some true) :
    Search blocks ((index, edge + 1) :: stack) visited order := by
  refine ⟨h.len, h.seen, h.sound, h.entry, h.done, ?_⟩
  refine forall_mem_cons.mpr ⟨fun n hn => ?_, fun f hf => h.partly f (mem_cons_of_mem _ hf)⟩
  rw [take_add_one, hnext, Option.toList_some, mem_append, mem_singleton] at hn
  rcases hn with hn | rfl
  · exact h.partly (index, edge) (by simp) n hn
  · exact hold

/-- An edge to a block that becomes the top of the stack. -/
theorem push (h : Search blocks ((index, edge) :: stack) visited order)
    (hnext : (succs blocks index)[edge]? = some next) (hlt : next < visited.length) :
    Search blocks ((next, 0) :: (index, edge + 1) :: stack) (visited.set next true) order := by
  have hkeep : ∀ b : Nat, visited[b]? = some true → (visited.set next true)[b]? = some true := by
    intro b hb
    by_cases hbn : next = b
    · rw [hbn, getElem?_set_self (hbn ▸ hlt)]
    · rw [getElem?_set_ne hbn]
      exact hb
  have hself : (visited.set next true)[next]? = some true := getElem?_set_self hlt
  have hidx : Reaches blocks index := h.sound index ((h.seen index).mpr (.inr (by simp)))
  refine ⟨by simpa using h.len, fun b => ?_, fun b hb => ?_, hkeep 0 h.entry,
    fun b hb n hn => hkeep n (h.done b hb n hn), ?_⟩
  · by_cases hbn : next = b
    · subst hbn
      simp [hself]
    · rw [getElem?_set_ne hbn, h.seen b]
      simp [Ne.symm hbn]
  · by_cases hbn : next = b
    · subst hbn
      exact .step hidx (mem_of_getElem? hnext)
    · rw [getElem?_set_ne hbn] at hb
      exact h.sound b hb
  · refine forall_mem_cons.mpr ⟨by simp, forall_mem_cons.mpr ⟨fun n hn => ?_,
      fun f hf n hn => hkeep n (h.partly f (mem_cons_of_mem _ hf) n hn)⟩⟩
    rw [take_add_one, hnext, Option.toList_some, mem_append, mem_singleton] at hn
    rcases hn with hn | rfl
    · exact hkeep n (h.partly (index, edge) (by simp) n hn)
    · exact hself

/-- A block that has no edge left. -/
theorem pop (h : Search blocks ((index, edge) :: stack) visited order)
    (hend : (succs blocks index)[edge]? = none) :
    Search blocks stack visited (order ++ [index]) := by
  refine ⟨h.len, fun b => ?_, h.sound, h.entry, fun b hb n hn => ?_,
    fun f hf => h.partly f (mem_cons_of_mem _ hf)⟩
  · rw [h.seen b]
    simp only [map_cons, mem_cons, mem_append]
    tauto
  · rcases mem_append.mp hb with hb | hb
    · exact h.done b hb n hn
    · rw [mem_singleton.mp hb] at hn
      refine h.partly (index, edge) (by simp) n ?_
      rwa [take_of_length_le (getElem?_eq_none_iff.mp hend)]

/-- With an empty stack, the order has all that is reached. -/
theorem mem_order (h : Search blocks [] visited order) (b : Nat) : b ∈ order ↔ Reaches blocks b := by
  have hseen : ∀ b, visited[b]? = some true ↔ b ∈ order := by
    intro b
    rw [h.seen b]
    simp
  refine ⟨fun hb => h.sound b ((hseen b).mpr hb), fun hr => ?_⟩
  induction hr with
  | entry => exact (hseen 0).mp h.entry
  | step _ hs ih => exact (hseen _).mp (h.done _ ih _ hs)

end Search

theorem postorderLoop_spec (hw : Wired blocks) (fuel : Nat) :
    ∀ (stack : List (Nat × Nat)) (visited : List Bool) (order : List Nat),
      Search blocks stack visited order →
      Ensures (postorderLoop function blocks fuel stack visited order) (fun out =>
        ∀ b, b ∈ out ↔ Reaches blocks b) := by
  induction fuel with
  | zero =>
    intro stack visited order h
    cases stack with
    | nil => exact .pure h.mem_order
    | cons frame stack => exact .throw
  | succ fuel ih =>
    intro stack visited order h
    cases stack with
    | nil => exact .pure h.mem_order
    | cons frame stack =>
      obtain ⟨index, edge⟩ := frame
      refine .seq ?_
      refine .bind (blockAt_spec blocks index) (fun block hblk => ?_)
      have hsuccs : block.successors = succs blocks index := by simp [succs, hblk]
      rw [hsuccs]
      split
      · rename_i next hnext
        have hlt : next < visited.length := by
          rw [h.len]
          exact hw.inRange index next (mem_of_getElem? hnext)
        rw [getD_eq_getElem?_getD, getElem?_eq_getElem hlt, Option.getD_some]
        split
        · rename_i hold
          refine ih _ _ _ (h.skip hnext ?_)
          rw [getElem?_eq_getElem hlt, hold]
        · exact ih _ _ _ (h.push hnext hlt)
      · rename_i hend
        exact ih _ _ _ (h.pop hend)

/-- The order lists the blocks that a path from the entry block reaches, and no other. -/
theorem postorder_spec (hw : Wired blocks) (hne : 0 < blocks.length) :
    Ensures (postorder function blocks) (fun order => ∀ b, b ∈ order ↔ Reaches blocks b) := by
  refine .seq (postorderLoop_spec function hw _ _ _ _ ?_)
  have hseen : ∀ b, ((List.replicate blocks.length false).set 0 true)[b]? = some true ↔ b = 0 := by
    intro b
    by_cases hb : 0 = b
    · subst hb
      simp [hne]
    · rw [getElem?_set_ne hb, getElem?_replicate]
      split <;> simp [Ne.symm hb]
  refine ⟨by simp, fun b => by simp [hseen], fun b hb => ?_, by simp [hseen], by simp, by simp⟩
  rw [(hseen b).mp hb]
  exact .entry

end Postorder

/-! ## Propagation -/

variable {pending : List Nat} {queued : List Bool}

section Propagation

variable {P : Type} (function : BytecodeFunction P)

/-- The same graph and the same marks; the solved values may differ. -/
structure SameGraph (blocks' blocks : List (Block w)) : Prop where
  shape : blocks'.map Block.shape = blocks.map Block.shape
  marks : blocks'.map (·.reachable) = blocks.map (·.reachable)

namespace SameGraph

variable {blocks blocks' blocks'' : List (Block w)}

theorem refl (blocks : List (Block w)) : SameGraph blocks blocks := ⟨rfl, rfl⟩

theorem trans (h : SameGraph blocks'' blocks') (h' : SameGraph blocks' blocks) :
    SameGraph blocks'' blocks :=
  ⟨h.shape.trans h'.shape, h.marks.trans h'.marks⟩

theorem isReachable_eq (h : SameGraph blocks' blocks) : isReachable blocks' = isReachable blocks := by
  funext b
  have hget := congrArg (fun marks => (marks[b]?).any id) h.marks
  simpa [isReachable, getElem?_map, Option.any_map, comp_def] using hget

theorem equations_eq (h : SameGraph blocks' blocks) :
    equations function blocks' = equations function blocks := by
  unfold equations flowGraph
  rw [h.isReachable_eq, preds_of_shape h.shape, defs_of_shape h.shape]

theorem setCurrent (blocks : List (Block w)) (direction : Direction) (index : Nat)
    (state : BitVec w) :
    SameGraph (blocks.modify index (Bytecode.setCurrent direction state)) blocks := by
  constructor
  · apply ext_getElem?
    intro i
    cases direction <;> simp [getElem?_modify] <;> split <;>
      cases blocks[i]? <;> rfl
  · apply ext_getElem?
    intro i
    cases direction <;> simp [getElem?_modify] <;> split <;>
      cases blocks[i]? <;> rfl

end SameGraph

theorem assignment_setCurrent
    (hblk : blocks[index]? = some block) (state : BitVec w) :
    assignment (blocks.modify index (setCurrent .initialization state)) =
      update (assignment blocks) index (BitSet.toSet state) := by
  funext b
  by_cases hb : b = index
  · subst hb
    rw [update_self]
    simp [assignment, initializedAt, setCurrent, hblk]
  · rw [update_of_ne hb]
    simp [assignment, initializedAt, Ne.symm hb]

/-- What holds before and after each turn of the queue. -/
structure Queued (blocks : List (Block w)) (pending : List Nat) (queued : List Bool) : Prop where
  len : queued.length = blocks.length
  waiting : ∀ b, queued[b]? = some true → b ∈ pending
  reached : ∀ b ∈ pending, isReachable blocks b = true

theorem enqueue_spec (blocks : List (Block w)) (edges : List Nat) :
    ∀ (pending : List Nat) (queued : List Bool), Queued blocks pending queued →
      Ensures (enqueue function blocks edges pending queued) (fun (pending', queued') =>
        Queued blocks pending' queued' ∧ pending ⊆ pending' ∧
          ∀ next ∈ edges, isReachable blocks next = true → next ∈ pending') := by
  induction edges with
  | nil =>
    intro pending queued h
    exact .pure ⟨h, List.Subset.refl _, by simp⟩
  | cons next edges ih =>
    intro pending queued h
    refine .seq ?_
    refine .bind (blockAt_spec blocks next) (fun block hblk => ?_)
    have hreach : isReachable blocks next = block.reachable := by simp [isReachable, hblk]
    have hlt : next < queued.length := by
      rw [h.len]
      exact (List.getElem?_eq_some_iff.mp hblk).1
    split
    · rename_i hnew
      obtain ⟨hr, hq⟩ : block.reachable = true ∧ queued.getD next true = false := by
        simpa using hnew
      refine (ih _ _ ⟨?_, ?_, ?_⟩).mono ?_
      · simpa using h.len
      · intro b hb
        by_cases hbn : next = b
        · simp [hbn]
        · rw [List.getElem?_set_ne hbn] at hb
          exact List.mem_append_left _ (h.waiting b hb)
      · intro b hb
        rcases List.mem_append.mp hb with hb | hb
        · exact h.reached b hb
        · rw [List.mem_singleton.mp hb, hreach, hr]
      · rintro ⟨pending', queued'⟩ ⟨hinv, hsub, hedg⟩
        refine ⟨hinv, fun b hb => hsub (List.mem_append_left _ hb), ?_⟩
        intro n hn hnr
        rcases List.mem_cons.mp hn with rfl | hn
        · exact hsub (List.mem_append_right _ (List.mem_singleton.mpr rfl))
        · exact hedg n hn hnr
    · rename_i hold
      refine (ih _ _ h).mono ?_
      rintro ⟨pending', queued'⟩ ⟨hinv, hsub, hedg⟩
      refine ⟨hinv, hsub, ?_⟩
      intro n hn hnr
      rcases List.mem_cons.mp hn with rfl | hn
      · -- a reachable block that is not appended is queued already
        have hq : queued.getD n true = true := by
          rw [hreach] at hnr
          simpa [hnr] using hold
        refine hsub (h.waiting n ?_)
        rw [List.getD_eq_getElem?_getD, List.getElem?_eq_getElem hlt] at hq
        rw [List.getElem?_eq_getElem hlt]
        simpa using hq
      · exact hedg n hn hnr

/-- Between two turns, for the graph `blocks` the run started with. -/
structure Turn (blocks current : List (Block w)) (pending : List Nat) (queued : List Bool) :
    Prop where
  same : SameGraph current blocks
  queue : Queued current pending queued
  descending : Descending (equations function blocks) (assignment current) {b | b ∈ pending}

/-- Popping a block from the queue leaves the rest of it in order. -/
theorem Queued.pop
    (h : Queued blocks (index :: pending) queued) :
    Queued blocks pending (queued.set index false) := by
  refine ⟨by simpa using h.len, fun b hb => ?_, fun b hb => h.reached b (mem_cons_of_mem _ hb)⟩
  by_cases hbi : index = b
  · subst hbi
    by_cases hlt : index < queued.length
    · simp [getElem?_set_self hlt] at hb
    · simp [hlt] at hb
  · rw [getElem?_set_ne hbi] at hb
    rcases mem_cons.mp (h.waiting b hb) with rfl | hb
    · exact absurd rfl hbi
    · exact hb

theorem Queued.of_same {blocks blocks' : List (Block w)}
    (h : Queued blocks pending queued) (hs : SameGraph blocks' blocks) :
    Queued blocks' pending queued := by
  refine ⟨?_, h.waiting, ?_⟩
  · rw [length_of_shape hs.shape]
    exact h.len
  · rw [hs.isReachable_eq]
    exact h.reached

section Turn

variable {function} {blocks current : List (Block w)} {pending : List Nat} {queued : List Bool}
  {index : Nat} {block : Block w}

/-- A turn that finds the block's equation satisfied. -/
theorem Turn.skip (h : Turn function blocks current (index :: pending) queued)
    (hblk : current[index]? = some block)
    (heq : block.initialized = transferOf function .initialization current index block) :
    Turn function blocks current pending (queued.set index false) := by
  have hr : isReachable current index = true := h.queue.reached index (by simp)
  have hval : equations function blocks (assignment current) index = assignment current index := by
    rw [← h.same.equations_eq function, ← toSet_transferOf function hblk hr, ← heq]
    simp [assignment, initializedAt, hblk]
  refine ⟨h.same, h.queue.pop, ?_⟩
  have hstill : update (assignment current) index
      (equations function blocks (assignment current) index) = assignment current := by
    rw [hval, update_eq_self]
  rw [← hstill]
  refine h.descending.lower index (fun c hc hp => ?_) (fun c _ => by rw [hstill])
  simpa [hc] using hp

/-- A turn that lowers the block's value and queues the blocks that read it. -/
theorem Turn.lower (hw : Wired blocks) (h : Turn function blocks current (index :: pending) queued)
    (hblk : current[index]? = some block) {pending' : List Nat} {queued' : List Bool}
    (hqueue : Queued current pending' queued') (hsub : pending ⊆ pending')
    (hedg : ∀ next ∈ block.successors, isReachable current next = true → next ∈ pending') :
    Turn function blocks
      (current.modify index (setCurrent .initialization
        (transferOf function .initialization current index block))) pending' queued' := by
  have hr : isReachable current index = true := h.queue.reached index (by simp)
  have hsame := SameGraph.setCurrent current .initialization index
    (transferOf function .initialization current index block)
  refine ⟨hsame.trans h.same, hqueue.of_same hsame, ?_⟩
  rw [assignment_setCurrent hblk, toSet_transferOf function hblk hr,
    h.same.equations_eq function]
  refine (flowGraph function blocks).visit h.descending index (fun c hmem hc => ?_)
    (fun c hcr hpred => ?_)
  · rcases mem_cons.mp hmem with rfl | hmem
    · exact absurd rfl hc
    · exact hsub hmem
  · have hsucc : c ∈ succs blocks index := ((hw.back index c).mp hpred).1
    have hedge : c ∈ block.successors := by
      rw [← succs_of_shape h.same.shape] at hsucc
      simpa [succs, hblk] using hsucc
    refine hedg c hedge ?_
    rw [h.same.isReachable_eq]
    exact hcr

end Turn

theorem propagateLoop_spec (hw : Wired blocks) (fuel : Nat) :
    ∀ (pending : List Nat) (queued : List Bool) (current : List (Block w)),
      Turn function blocks current pending queued →
      Ensures (propagateLoop function .initialization fuel pending queued current) (fun out =>
        SameGraph out blocks ∧ assignment out = (equations function blocks).gfp) := by
  induction fuel with
  | zero =>
    intro pending queued current h
    cases pending with
    | nil => exact .pure ⟨h.same, h.descending.eq_gfp (by simp)⟩
    | cons index pending => exact .throw
  | succ fuel ih =>
    intro pending queued current h
    cases pending with
    | nil => exact .pure ⟨h.same, h.descending.eq_gfp (by simp)⟩
    | cons index pending =>
      refine .bind (blockAt_spec current index) (fun block hblk => ?_)
      refine .seq ?_
      dsimp only
      split
      · rename_i heq
        exact ih _ _ _ (h.skip hblk heq)
      · have hsame := SameGraph.setCurrent current .initialization index
          (transferOf function .initialization current index block)
        refine .bind
          (enqueue_spec function _ block.successors _ _ (h.queue.pop.of_same hsame)) ?_
        rintro ⟨pending', queued'⟩ ⟨hqueue, hsub, hedg⟩
        refine ih _ _ _ (h.lower hw hblk (hqueue.of_same ?_) hsub ?_)
        · exact ⟨hsame.shape.symm, hsame.marks.symm⟩
        · rw [← hsame.isReachable_eq]
          exact hedg

/-- Whatever the order in which the reachable blocks are first visited, the solver ends in the
greatest solution of the equations. -/
theorem propagate_spec (hw : Wired blocks)
    (htop : ∀ block ∈ blocks, block.initialized = BitVec.allOnes w) (order : List Nat)
    (hord : ∀ b, b ∈ order ↔ isReachable blocks b = true) :
    Ensures (propagate function order .initialization blocks) (fun out =>
      SameGraph out blocks ∧ assignment out = (equations function blocks).gfp) := by
  refine .seq ?_
  refine propagateLoop_spec function hw _ _ _ _ ⟨.refl blocks, ⟨by simp, ?_, ?_⟩, ?_⟩
  · intro b hb
    rw [mem_reverse, hord]
    rw [getElem?_map] at hb
    simpa [isReachable, Option.any_eq_true, Option.map_eq_some_iff] using hb
  · intro b hb
    exact (hord b).mp (mem_reverse.mp hb)
  · have hassign : assignment blocks = ⊤ := by
      funext b
      unfold assignment initializedAt
      cases hb : blocks[b]? with
      | none => simp
      | some block => simp [htop block (mem_of_getElem? hb)]
    rw [hassign]
    refine .top (fun b hb slot _ hr => absurd ?_ hb)
    exact mem_reverse.mpr ((hord b).mpr hr)

end Propagation

end Kagari.Bytecode
