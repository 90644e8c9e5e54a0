import Kagari.Bytecode.FlowGraph
import Kagari.Lib.Liveness

/-!
# Slots live across an await

What the flow check records at an await has every slot that some path from the await reads before it
overwrites it, and no host capability is among the recorded slots (`verifyFlow_awaits`). Paths go
over the instructions themselves, not over the check's blocks.
-/

namespace Kagari.Bytecode

open Lib List Option

variable {leaders : List Nat} {slot : Slot}

section Await

variable {P : Type} (function : BytecodeFunction P) {w : Nat}

/-- Some path from the instruction reads the slot before it overwrites it. -/
abbrev LiveAt : Nat → Slot → Prop :=
  Live (fun pc => {slot | Reads function pc slot}) (fun pc => {slot | Writes function pc slot})
    (Next function)

/-- The slot holds a host handle, or a host capability or a reference inline. -/
def HostScoped (slot : Slot) : Prop :=
  ∃ physical, function.metadata.slots[slot]? = some physical ∧ (physical = .hostHandle ∨
    ∃ ty, function.metadata.semantic.slots.lookup slot = some ty ∧ inlineHost ty = true)

/-! ## The uses of the blocks stay -/

/-- The slots read first in each block are the same. -/
def SameUses (blocks' blocks : List (Block w)) : Prop :=
  blocks'.map (·.uses) = blocks.map (·.uses)

theorem SameUses.markReachable (blocks : List (Block w)) (index : Nat) :
    SameUses (markReachable blocks index) blocks := by
  apply ext_getElem?
  intro i
  simp only [Bytecode.markReachable, getElem?_map, getElem?_modify]
  split <;> cases blocks[i]? <;> rfl

theorem SameUses.setCurrent (blocks : List (Block w)) (direction : Direction) (index : Nat)
    (state : BitVec w) :
    SameUses (blocks.modify index (Bytecode.setCurrent direction state)) blocks := by
  apply ext_getElem?
  intro i
  simp only [getElem?_map, getElem?_modify]
  cases direction <;> split <;> cases blocks[i]? <;> rfl

theorem visitSuccessors_uses (edges : List Nat) : ∀ (pending : List Nat) (blocks : List (Block w)),
    Ensures (visitSuccessors function edges pending blocks) (fun out => SameUses out.2 blocks) := by
  induction edges with
  | nil => exact fun pending blocks => .pure rfl
  | cons next edges ih =>
    intro pending blocks
    refine .seq (.bind Ensures.any (fun block _ => ?_))
    split
    · exact ih _ _
    · exact (ih _ _).mono (fun out h => h.trans (SameUses.markReachable blocks next))

theorem reachLoop_uses (fuel : Nat) : ∀ (pending : List Nat) (blocks : List (Block w)),
    Ensures (reachLoop function fuel pending blocks) (fun out => SameUses out blocks) := by
  induction fuel with
  | zero =>
    intro pending blocks
    cases pending with
    | nil => exact .pure rfl
    | cons index pending => exact .pure rfl
  | succ fuel ih =>
    intro pending blocks
    cases pending with
    | nil => exact .pure rfl
    | cons index pending =>
      refine .bind Ensures.any (fun block _ => ?_)
      refine .bind (visitSuccessors_uses function _ _ _) ?_
      rintro ⟨pending', blocks'⟩ h
      exact (ih _ _).mono (fun out hout => hout.trans h)

theorem reachability_uses (blocks : List (Block w)) :
    Ensures (reachability function blocks) (fun out => SameUses out blocks) := by
  refine .bind Ensures.any (fun _ _ => ?_)
  exact (reachLoop_uses function _ _ _).mono
    (fun out h => h.trans (SameUses.markReachable blocks 0))

theorem propagateLoop_same (direction : Direction) (fuel : Nat) :
    ∀ (pending : List Nat) (queued : List Bool) (blocks : List (Block w)),
      Ensures (propagateLoop function direction fuel pending queued blocks)
        (fun out => SameGraph out blocks ∧ SameUses out blocks) := by
  induction fuel with
  | zero =>
    intro pending queued blocks
    cases pending with
    | nil => exact .pure ⟨.refl blocks, rfl⟩
    | cons index pending => exact .throw
  | succ fuel ih =>
    intro pending queued blocks
    cases pending with
    | nil => exact .pure ⟨.refl blocks, rfl⟩
    | cons index pending =>
      refine .bind Ensures.any (fun block _ => .seq ?_)
      dsimp only
      split
      · exact ih _ _ _
      · refine .bind Ensures.any ?_
        rintro ⟨pending', queued'⟩ -
        refine (ih _ _ _).mono (fun out h => ⟨h.1.trans (.setCurrent _ _ _ _), ?_⟩)
        exact h.2.trans (SameUses.setCurrent _ _ _ _)

/-! ## The liveness equations -/

/-- Every reachable block is waiting, or its equation holds. -/
structure Settling (graph current : List (Block w)) (pending : List Nat) (queued : List Bool) :
    Prop where
  same : SameGraph current graph
  queue : Queued current pending queued
  settled : ∀ b block, current[b]? = some block → block.reachable = true →
    b ∈ pending ∨ block.live = transferOf function .liveness current b block

/-- What one successor adds to the state of `liveOut`. -/
def addLive (blocks : List (Block w)) (state : BitVec w) (next : Nat) : BitVec w :=
  match blocks[next]? with
  | some block => state ||| block.live
  | none => state

variable {blocks : List (Block w)}

/-- The equation of a block reads its successors only. -/
theorem liveOut_modify {index : Nat} {state : BitVec w} {block : Block w}
    (h : index ∉ block.successors) :
    liveOut (blocks.modify index (setCurrent .liveness state)) block = liveOut blocks block := by
  have hfold : ∀ (edges : List Nat) (first : BitVec w), index ∉ edges →
      edges.foldl (addLive (blocks.modify index (setCurrent .liveness state))) first =
        edges.foldl (addLive blocks) first := by
    intro edges
    induction edges with
    | nil => exact fun first _ => rfl
    | cons next edges ih =>
      intro first hnot
      simp only [mem_cons, not_or] at hnot
      have hnext : addLive (blocks.modify index (setCurrent .liveness state)) first next = addLive blocks first next := by
        rw [addLive, getElem?_modify_ne _ _ hnot.1, addLive]
      rw [foldl_cons, foldl_cons, ih _ hnot.2, hnext]
  exact hfold _ _ h

variable {function} {graph current : List (Block w)} {pending : List Nat} {queued : List Bool}
  {index : Nat} {block : Block w}

theorem Settling.skip (h : Settling function graph current (index :: pending) queued)
    (hblk : current[index]? = some block)
    (heq : block.live = transferOf function .liveness current index block) :
    Settling function graph current pending (queued.set index false) := by
  refine ⟨h.same, h.queue.pop, fun b found hb hr => ?_⟩
  rcases h.settled b found hb hr with hmem | hsett
  · rcases mem_cons.mp hmem with rfl | hmem
    · cases hblk.symm.trans hb
      exact .inr heq
    · exact .inl hmem
  · exact .inr hsett

theorem Settling.raise (hw : Wired graph) (h : Settling function graph current (index :: pending) queued)
    (hblk : current[index]? = some block) {pending' : List Nat} {queued' : List Bool}
    (hqueue : Queued current pending' queued') (hsub : pending ⊆ pending')
    (hedg : ∀ next ∈ block.predecessors, isReachable current next = true → next ∈ pending') :
    Settling function graph (current.modify index (setCurrent .liveness
      (transferOf function .liveness current index block))) pending' queued' := by
  have hsame := SameGraph.setCurrent current .liveness index
    (transferOf function .liveness current index block)
  refine ⟨hsame.trans h.same, hqueue.of_same hsame, fun b found hb hr => ?_⟩
  have hwc : Wired current := hw.of_shape h.same.shape
  have hreach : isReachable current b = true := by
    rw [← hsame.isReachable_eq]
    simp [isReachable, hb, hr]
  by_cases hedge : index ∈ succs current b
  · -- a block that leads to the changed one waits again
    refine .inl (hedg b ?_ hreach)
    have hback := (hwc.back b index).mpr ⟨hedge, hwc.inRange b index hedge⟩
    simpa [preds, hblk] using hback
  · by_cases hbi : b = index
    · subst hbi
      rw [getElem?_modify_eq, hblk] at hb
      cases hb
      refine .inr ?_
      show transferOf function .liveness current b block = (liveOut _ _ &&& _) ||| _
      rw [liveOut_modify]
      · rfl
      · simpa [succs, hblk, setCurrent] using hedge
    · rw [getElem?_modify_ne _ _ (Ne.symm hbi)] at hb
      rcases h.settled b found hb hr with hmem | hsett
      · exact .inl (hsub ((mem_cons.mp hmem).resolve_left hbi))
      · refine .inr ?_
        rw [hsett]
        show _ = (liveOut _ _ &&& _) ||| _
        rw [liveOut_modify]
        · rfl
        · simpa [succs, hb] using hedge

variable (function)

theorem propagateLoop_settles (hw : Wired graph) (fuel : Nat) :
    ∀ (pending : List Nat) (queued : List Bool) (current : List (Block w)),
      Settling function graph current pending queued →
      Ensures (propagateLoop function .liveness fuel pending queued current) (fun out =>
        ∀ b block, out[b]? = some block → block.reachable = true →
          block.live = transferOf function .liveness out b block) := by
  induction fuel with
  | zero =>
    intro pending queued current h
    cases pending with
    | nil => exact .pure (fun b block hb hr => (h.settled b block hb hr).resolve_left (by simp))
    | cons index pending => exact .throw
  | succ fuel ih =>
    intro pending queued current h
    cases pending with
    | nil => exact .pure (fun b block hb hr => (h.settled b block hb hr).resolve_left (by simp))
    | cons index pending =>
      refine .bind (blockAt_spec current index) (fun block hblk => ?_)
      refine .seq ?_
      dsimp only
      split
      · rename_i heq
        exact ih _ _ _ (h.skip hblk heq)
      · have hsame := SameGraph.setCurrent current .liveness index
          (transferOf function .liveness current index block)
        refine .bind
          (enqueue_spec function _ block.predecessors _ _ (h.queue.pop.of_same hsame)) ?_
        rintro ⟨pending', queued'⟩ ⟨hqueue, hsub, hedg⟩
        refine ih _ _ _ (h.raise hw hblk (hqueue.of_same ?_) hsub ?_)
        · exact ⟨hsame.shape.symm, hsame.marks.symm⟩
        · rw [← hsame.isReachable_eq]
          exact hedg

/-! ## Down a block -/

/-- Live before a part of a block, when what the block's successors need is live after it. -/
def BlockLive (out : BitVec w) (pcs : List Nat) (slot : Slot) : Prop :=
  ReadFirst function pcs slot ∨
    (BitSet.contains out slot = true ∧ ∀ pc ∈ pcs, ¬ Writes function pc slot)

variable {function} in
theorem BlockLive.cons {out : BitVec w} {pc : Nat} {pcs : List Nat} {slot : Slot} :
    BlockLive function out (pc :: pcs) slot ↔
      Reads function pc slot ∨ (¬ Writes function pc slot ∧ BlockLive function out pcs slot) := by
  unfold BlockLive
  rw [ReadFirst.cons, forall_mem_cons]
  tauto

variable {function} in
/-- What the equation of a block gives covers what is live at its start. -/
theorem BlockLive.transfer {b : Nat} {block : Block w}
    (hlaid : Laid function leaders b block)
    (hwrtn : ∀ slot, BitSet.contains block.defines slot = true →
      ∃ pc ∈ block.pcs, Writes function pc slot)
    (hlt : slot < w)
    (h : BlockLive function (liveOut blocks block) block.pcs slot) :
    BitSet.contains (transferOf function .liveness blocks b block) slot = true := by
  show BitSet.contains ((liveOut blocks block &&& ~~~ block.defines) ||| block.uses) slot = true
  rw [BitSet.contains_or]
  rcases h with hread | ⟨hout, hkept⟩
  · exact .inr (hlaid.uses slot hlt hread)
  · refine .inl (BitSet.contains_and.mpr ⟨hout, ?_⟩)
    by_contra hdefd
    have hdef : BitSet.contains block.defines slot = true := by
      unfold BitSet.contains at hdefd ⊢
      simpa [hlt] using hdefd
    obtain ⟨pc, hpc, hwrs⟩ := hwrtn slot hdef
    exact hkept pc hpc hwrs

theorem contains_liveOut {block next : Block w} {e : Nat}
    (he : e ∈ block.successors) (hnext : blocks[e]? = some next)
    (hlive : BitSet.contains next.live slot = true) :
    BitSet.contains (liveOut blocks block) slot = true := by
  have hfold : ∀ (edges : List Nat) (state : BitVec w),
      (BitSet.contains state slot = true ∨ e ∈ edges) →
      BitSet.contains (edges.foldl (addLive blocks) state) slot = true := by
    intro edges
    induction edges with
    | nil => exact fun state h => h.resolve_right (by simp)
    | cons first edges ih =>
      intro state h
      rw [foldl_cons]
      refine ih _ ?_
      unfold addLive
      rcases h with h | h
      · left
        split
        · exact BitSet.contains_or.mpr (.inl h)
        · exact h
      · rcases mem_cons.mp h with rfl | h
        · rw [hnext]
          exact .inl (BitSet.contains_or.mpr (.inr hlive))
        · exact .inr h
  exact hfold _ _ (.inr he)

/-- What the last phase of the check starts from. -/
structure Settled (leaders : List Nat) (blocks : List (Block w)) : Prop where
  layout : Layout function leaders blocks
  closed : ∀ (b : Nat) (block : Block w), blocks[b]? = some block → block.reachable = true →
    ∀ e ∈ block.successors, ∀ next : Block w, blocks[e]? = some next → next.reachable = true
  written : ∀ (b : Nat) (block : Block w), blocks[b]? = some block →
    ∀ slot, BitSet.contains block.defines slot = true → ∃ pc ∈ block.pcs, Writes function pc slot
  equation : ∀ (b : Nat) (block : Block w), blocks[b]? = some block → block.reachable = true →
    block.live = transferOf function .liveness blocks b block
  inRange : ∀ (b : Nat) (block : Block w), blocks[b]? = some block → block.reachable = true →
    ∀ pc ∈ block.pcs, ∀ slot, Reads function pc slot → slot < w

variable {function} in
/-- At every program counter of a reachable block, the rest of the block and what is live after it
cover what some path reads. -/
theorem Settled.blockLive
    (h : Settled function leaders blocks) {pc : Nat} (hlive : LiveAt function pc slot) :
    ∀ (b : Nat) (block : Block w) (before after : List Nat), blocks[b]? = some block →
      block.reachable = true → block.pcs = before ++ pc :: after →
      BlockLive function (liveOut blocks block) (pc :: after) slot ∧ slot < w := by
  induction hlive with
  | @here pc slot hread =>
    intro b block before after hb hr hspl
    refine ⟨BlockLive.cons.mpr (.inl hread), h.inRange b block hb hr pc ?_ slot hread⟩
    rw [hspl]
    simp
  | @later pc pc' slot hkept hnext _ ih =>
    intro b block before after hb hr hspl
    rcases h.layout.step hb hspl hnext with ⟨rest, rfl⟩ | ⟨rfl, e, he, block', rest, hb', hpcs⟩
    · obtain ⟨hlive, hlt⟩ := ih b block (before ++ [pc]) rest hb hr (by rw [hspl]; simp)
      exact ⟨BlockLive.cons.mpr (.inr ⟨hkept, hlive⟩), hlt⟩
    · have hr' := h.closed b block hb hr e he block' hb'
      obtain ⟨hlive, hlt⟩ := ih e block' [] rest hb' hr' hpcs
      rw [← hpcs] at hlive
      refine ⟨.inr ⟨?_, by simpa using hkept⟩, hlt⟩
      refine contains_liveOut he hb' ?_
      rw [h.equation e block' hb' hr']
      exact hlive.transfer (h.layout.laid e block' hb') (h.written e block' hb') hlt

/-! ## The records -/

/-- The instruction is an await. -/
def IsAwait (pc : Nat) : Prop :=
  ∃ dst value future, function.instructions[pc]? = some (.await dst value future)

theorem hostLive_spec {live : BitVec w} (h : hostLive function live = false)
    (hlive : BitSet.contains live slot = true) : ¬ HostScoped function slot := by
  rintro ⟨physical, hphys, hhost⟩
  have hnone := (any_eq_false.mp h) (physical, slot)
    (mem_zipIdx_iff_getElem?.mpr hphys)
  dsimp only at hnone
  rw [hlive, Bool.true_and] at hnone
  rcases hhost with rfl | ⟨ty, hty, hinline⟩
  · simp at hnone
  · simp [hty, hinline] at hnone

/-- A record of an await in a part of a block: `rest` is still to do, `passed` comes after it. -/
structure Recorded (out : BitVec w) (pcs : List Nat) (point : AwaitLiveness w) : Prop where
  await : IsAwait function point.instruction
  covers : ∃ before after, pcs = before ++ point.instruction :: after ∧ ∀ slot < w,
    BlockLive function out (point.instruction :: after) slot → BitSet.contains point.live slot = true
  hostFree : ∀ slot, BitSet.contains point.live slot = true → ¬ HostScoped function slot

variable {availability : List DebugNode}
  (havl : DebugAvailability.IndexOf function.metadata.debug.localLiveRanges availability)

include havl

theorem checkAwaits_spec (out : BitVec w) (rest : List Nat) :
    ∀ (passed : List Nat) (live : BitVec w),
      (∀ slot < w, BlockLive function out passed slot → BitSet.contains live slot = true) →
      Ensures (checkAwaits function availability rest live) (fun points =>
        (∀ point ∈ points, Recorded function out (rest.reverse ++ passed) point) ∧
        ∀ pc ∈ rest, IsAwait function pc → ∃ point ∈ points, point.instruction = pc) := by
  induction rest with
  | nil => exact fun passed live _ => .pure ⟨by simp, by simp⟩
  | cons pc rest ih =>
    intro passed live hlive
    refine .bind (instructionAt_spec function pc) (fun instruction hget => ?_)
    refine .bind (inputs_spec function havl pc) (fun slots hsl => .seq ?_)
    have hnext : ∀ slot < w, BlockLive function out (pc :: passed) slot →
        BitSet.contains (slots.foldl BitSet.insert
          (instruction.slotOutput.elim live (BitSet.remove live))) slot = true := by
      intro slot hlt h
      rw [BitSet.contains_foldl_insert]
      rcases BlockLive.cons.mp h with hread | ⟨hkept, haft⟩
      · exact .inr ⟨hsl slot hread, hlt⟩
      · refine .inl ?_
        cases hout : instruction.slotOutput with
        | none => exact hlive slot hlt haft
        | some output =>
          rw [elim_some, BitSet.contains_remove]
          refine ⟨hlive slot hlt haft, ?_⟩
          rintro rfl
          exact hkept ⟨instruction, hget, hout⟩
    have hspl : (pc :: rest).reverse ++ passed = rest.reverse ++ pc :: passed := by simp
    rw [hspl]
    dsimp only
    split
    · rename_i dst value future
      refine .seq ?_
      split
      · exact .throw
      · rename_i hhost
        refine .seq ?_
        refine .bind (ih (pc :: passed) _ hnext) ?_
        rintro points ⟨hpts, hall⟩
        refine .pure ⟨forall_mem_cons.mpr ⟨?_, hpts⟩, ?_⟩
        · refine ⟨⟨dst, value, future, hget⟩, ⟨rest.reverse, passed, rfl, hnext⟩, fun slot => ?_⟩
          exact hostLive_spec function (by simpa using hhost)
        · refine forall_mem_cons.mpr ⟨fun _ => ⟨_, mem_cons_self, rfl⟩, fun later hlat hawait => ?_⟩
          obtain ⟨point, hpt, heq⟩ := hall later hlat hawait
          exact ⟨point, mem_cons_of_mem _ hpt, heq⟩
    · rename_i hother
      refine (ih (pc :: passed) _ hnext).mono ?_
      rintro points ⟨hpts, hall⟩
      refine ⟨hpts, forall_mem_cons.mpr ⟨fun hawait => ?_, hall⟩⟩
      obtain ⟨dst, value, future, hfnd⟩ := hawait
      exact absurd (some.inj (hget.symm.trans hfnd)) (hother dst value future)

/-- What is read is a slot: it is in the bit set of the initialized ones. -/
theorem checkInitialized_inRange (pcs : List Nat) : ∀ initialized : BitVec w,
    Ensures (checkInitialized function availability pcs initialized)
      (fun _ => ∀ pc ∈ pcs, ∀ slot, Reads function pc slot → slot < w) := by
  induction pcs with
  | nil => exact fun initialized => .pure (by simp)
  | cons first pcs ih =>
    intro initialized
    refine .bind Ensures.any (fun instruction _ => ?_)
    refine .bind (inputs_spec function havl first) (fun slots hsl => .seq ?_)
    split
    · exact .throw
    · rename_i hall
      refine (ih _).mono (fun _ hrest => forall_mem_cons.mpr ⟨fun slot hread => ?_, hrest⟩)
      by_contra hout
      refine hall (any_eq_true.mpr ⟨slot, hsl slot hread, ?_⟩)
      have hnot : BitSet.contains initialized slot = false := by
        unfold BitSet.contains
        exact BitVec.getLsbD_of_ge _ _ (Nat.le_of_not_lt hout)
      rw [hnot]
      rfl

/-- Every reachable block's awaits are recorded. -/
theorem checkBlocks_awaits (all : List (Block w)) (blocks : List (Block w)) : ∀ index,
    Ensures (checkBlocks function availability all blocks index) (fun points =>
      (∀ block ∈ blocks, block.reachable = true →
        (∀ pc ∈ block.pcs, ∀ slot, Reads function pc slot → slot < w) ∧
        ∀ pc ∈ block.pcs, IsAwait function pc → ∃ point ∈ points, point.instruction = pc) ∧
      ∀ point ∈ points, ∃ block ∈ blocks, block.reachable = true ∧
        Recorded function (liveOut all block) block.pcs point) := by
  induction blocks with
  | nil => exact fun index => .pure ⟨by simp, by simp⟩
  | cons block blocks ih =>
    intro index
    unfold checkBlocks
    split
    · rename_i hr
      refine .bind (checkInitialized_inRange function havl _ _) (fun _ hrng => ?_)
      refine .bind (checkAwaits_spec function havl (liveOut all block) _ [] _ ?_) ?_
      · intro slot _ h
        rcases h with ⟨before, pc, after, hspl, -⟩ | ⟨hout, -⟩
        · simp at hspl
        · exact hout
      rintro points ⟨hpts, hall⟩
      refine .bind (ih (index + 1)) ?_
      rintro rest ⟨hblks, hrest⟩
      refine .pure ⟨forall_mem_cons.mpr ⟨fun _ => ⟨hrng, fun pc hpc hawait => ?_⟩,
        fun b hb hreach => ⟨(hblks b hb hreach).1, fun pc hpc hawait => ?_⟩⟩, fun point hpt => ?_⟩
      · obtain ⟨point, hpt, heq⟩ := hall pc (mem_reverse.mpr hpc) hawait
        exact ⟨point, mem_append_left _ hpt, heq⟩
      · obtain ⟨point, hpt, heq⟩ := (hblks b hb hreach).2 pc hpc hawait
        exact ⟨point, mem_append_right _ hpt, heq⟩
      · rcases mem_append.mp hpt with hpt | hpt
        · have h := hpts point hpt
          rw [reverse_reverse, append_nil] at h
          exact ⟨block, by simp, hr, h⟩
        · obtain ⟨b, hb, h⟩ := hrest point hpt
          exact ⟨b, mem_cons_of_mem _ hb, h⟩
    · rename_i hr
      refine (ih (index + 1)).mono ?_
      rintro rest ⟨hblks, hrest⟩
      refine ⟨forall_mem_cons.mpr ⟨fun h => absurd h hr, hblks⟩, fun point hpt => ?_⟩
      obtain ⟨b, hb, h⟩ := hrest point hpt
      exact ⟨b, mem_cons_of_mem _ hb, h⟩

omit havl

/-! ## The check as a whole -/

/-- The two fixed points leave the code of the blocks alone, and the second one is settled. -/
theorem fixedPoints_settles {marked : List (Block w)} (hw : Wired marked) (hne : 0 < marked.length)
    (hmarks : ∀ b, isReachable marked b = true ↔ Reaches marked b) :
    Ensures (fixedPoints function marked) (fun out => SameUses out marked ∧
      ∀ b block, out[b]? = some block → block.reachable = true →
        block.live = transferOf function .liveness out b block) := by
  refine .bind (postorder_spec function hw hne) (fun order hord => ?_)
  refine .bind (P := fun solved => SameGraph solved marked ∧ SameUses solved marked) ?_ ?_
  · exact .seq (propagateLoop_same function _ _ _ _ _)
  rintro solved ⟨hsame, huses⟩
  refine .seq (((propagateLoop_same function _ _ _ _ _).and
    (propagateLoop_settles function (hw.of_shape hsame.shape) _ _ _ _ ?_)).mono ?_)
  · have hmem : ∀ b, isReachable solved b = true ↔ b ∈ order := by
      intro b
      rw [hsame.isReachable_eq, hmarks, hord]
    refine ⟨.refl solved, ⟨by simp, fun b hb => ?_, fun b hb => (hmem b).mpr hb⟩, ?_⟩
    · refine (hmem b).mp ?_
      rw [getElem?_map] at hb
      simpa [isReachable, Option.any_eq_true, Option.map_eq_some_iff] using hb
    · intro b block hb hr
      refine .inl ((hmem b).mp ?_)
      simp [isReachable, hb, hr]
  · exact fun out h => ⟨h.1.2.trans huses, h.2⟩

/-- What the check returns: settled blocks, and the records of their awaits. -/
structure AwaitsOf (result : FlowResult w) : Prop where
  settled : ∃ leaders, Settled function leaders result.blocks
  reached : ∀ b block, result.blocks[b]? = some block → Reaches result.blocks b →
    block.reachable = true
  all : ∀ block ∈ result.blocks, block.reachable = true → ∀ pc ∈ block.pcs, IsAwait function pc →
    ∃ point ∈ result.awaits, point.instruction = pc
  recorded : ∀ point ∈ result.awaits, ∃ block ∈ result.blocks, block.reachable = true ∧
    Recorded function (liveOut result.blocks block) block.pcs point

private theorem getElem?_of_map {α β : Type} {f : α → β} {l l' : List α} (h : l'.map f = l.map f)
    {k : Nat} {x : α} (hx : l'[k]? = some x) : ∃ y, l[k]? = some y ∧ f x = f y := by
  have hk := congrArg (·[k]?) h
  simp only [getElem?_map, hx, map_some] at hk
  obtain ⟨y, hy, heq⟩ := map_eq_some_iff.mp hk.symm
  exact ⟨y, hy, heq.symm⟩

theorem verifyFlow_awaitsOf : Ensures (verifyFlow function) (AwaitsOf function) := by
  unfold verifyFlow
  split
  · exact Ensures.throw
  split
  · exact Ensures.throw
  refine Ensures.bind (DebugAvailability.new_spec _) (fun availability havail => ?_)
  refine Ensures.bind ((graph_spec function availability).and (graph_layout function havail)) ?_
  rintro graph ⟨⟨hw, hfr⟩, leaders, hlay⟩
  refine Ensures.bind ((reachability_spec function fun block hb => (hfr block hb).unreached).and
    (reachability_uses function graph)) ?_
  rintro marked ⟨⟨hsame, hmarks⟩, huses⟩
  have hwm : Wired marked := hw.of_shape hsame.shape
  have hne : 0 < marked.length := by
    obtain ⟨block, hblk, -⟩ := (any_eq_true _ _).mp ((hmarks 0).mpr .entry)
    exact (List.getElem?_eq_some_iff.mp hblk).1
  have hmrk : ∀ b, isReachable marked b = true ↔ Reaches marked b := by
    intro b
    rw [hmarks]
    exact ⟨Reaches.of_shape hsame.shape, Reaches.of_shape hsame.shape.symm⟩
  refine Ensures.bind ((fixedPoints_spec function hw (fun block hb => (hfr block hb).full) hsame
    hmarks).and (fixedPoints_settles function hwm hne hmrk)) ?_
  rintro blocks ⟨hsol, huses', heqn⟩
  have hwb : Wired blocks := hw.of_shape hsol.shape
  have hrch : ∀ b block, blocks[b]? = some block → Reaches blocks b → block.reachable = true := by
    intro b block hb hr
    have h := (hsol.reached b).mpr (Reaches.of_shape hsol.shape.symm hr)
    simpa [isReachable, hb] using h
  refine Ensures.bind (P := fun awaits => AwaitsOf function ⟨awaits, blocks⟩) ?_
    (fun awaits h => Ensures.pure h)
  refine Ensures.bind (checkBlocks_awaits function havail blocks blocks 0) ?_
  rintro points ⟨hblks, hpts⟩
  refine Ensures.pure ⟨⟨leaders, ?_, ?_, ?_, heqn, ?_⟩, hrch, ?_, ?_⟩
  · refine ⟨hlay.sorted, hlay.entry, hlay.leads, ?_, fun b block hb => ?_⟩
    · rw [length_of_shape hsol.shape, hlay.length]
    · obtain ⟨source, hsrc, hshp⟩ := getElem?_of_map hsol.shape hb
      obtain ⟨source', hsrc', hsameUses⟩ := getElem?_of_map (huses'.trans huses) hb
      cases hsrc.symm.trans hsrc'
      exact (hlay.laid b source hsrc).congr hshp hsameUses
  · intro b block hb hr e he next hnext
    have hreach : Reaches blocks b := by
      refine Reaches.of_shape hsol.shape ((hsol.reached b).mp ?_)
      simp [isReachable, hb, hr]
    refine hrch e next hnext (.step hreach ?_)
    simpa [succs, hb] using he
  · intro b block hb slot hslot
    obtain ⟨source, hsrc, hshp⟩ := getElem?_of_map hsol.shape hb
    have hst : block.start = source.start := congrArg (·.1) hshp
    have hstop : block.stop = source.stop := congrArg (·.2.1) hshp
    have hdefines : block.defines = source.defines := congrArg (·.2.2.2.2) hshp
    rw [hdefines] at hslot
    have h := (hfr source (List.mem_of_getElem? hsrc)).written slot hslot
    unfold Block.pcs at h ⊢
    rw [hst, hstop]
    exact h
  · exact fun b block hb hr => (hblks block (List.mem_of_getElem? hb) hr).1
  · intro block hb hr pc hpc hawait
    obtain ⟨point, hpt, heq⟩ := (hblks block hb hr).2 pc hpc hawait
    exact ⟨point, (List.mergeSort_perm _ _).mem_iff.mpr hpt, heq⟩
  · exact fun point hpt => hpts point ((List.mergeSort_perm _ _).mem_iff.mp hpt)

/-- In an accepted function every await that control gets to has a record, and the recorded slots of
an await have every slot that some path from it reads before it overwrites it. None of them holds a
host handle, a host capability or a reference: a function in which one does is not accepted. -/
theorem verifyFlow_awaits {budget budget' : FlowBudget} {result : FlowResult (width function)}
    (h : (verifyFlow function).run budget = .ok (result, budget')) :
    (∀ pc, Executes function pc → IsAwait function pc →
      ∃ point ∈ result.awaits, point.instruction = pc) ∧
    ∀ point ∈ result.awaits, IsAwait function point.instruction ∧
      (∀ slot, LiveAt function point.instruction slot →
        BitSet.contains point.live slot = true) ∧
      ∀ slot, BitSet.contains point.live slot = true → ¬ HostScoped function slot := by
  have hawaits := verifyFlow_awaitsOf function budget result budget' h
  obtain ⟨leaders, hsett⟩ := hawaits.settled
  constructor
  · intro pc hpc hawait
    obtain ⟨b, block, before, after, hreach, hb, hspl⟩ := hsett.layout.executes hpc
    refine hawaits.all block (List.mem_of_getElem? hb) (hawaits.reached b block hb hreach) pc ?_ hawait
    rw [hspl]
    simp
  · intro point hpt
    obtain ⟨block, hblk, hr, hrec⟩ := hawaits.recorded point hpt
    refine ⟨hrec.await, fun slot hlive => ?_, hrec.hostFree⟩
    obtain ⟨before, after, hspl, hcovs⟩ := hrec.covers
    obtain ⟨b, hb⟩ := List.mem_iff_getElem?.mp hblk
    obtain ⟨hblockLive, hlt⟩ := hsett.blockLive hlive b block before after hb hr hspl
    exact hcovs slot hlt hblockLive

end Await

/-- A loop that awaits its parameter, slot 0, on every turn. -/
def awaitLoop : BytecodeFunction Unit where
  id := 0
  metadata :=
    { semantic := { params := [], slots := [] }
      slots := [.heapObject, .bool]
      parameterSlots := [0]
      origins := []
      instructionOrigins := []
      effects := { maySuspend := true }
      debug :=
        { sourceSpans := [], lineTable := [], safeDebugPoints := []
          localLiveRanges := [⟨1, 1, 2⟩] } }
  instructions := [.await 1 0 (.builtin .bool), .branch 1 0 2, .ret none]

/-- The await is recorded, with the slot it reads. -/
theorem verifyFlow_awaits_awaitLoop :
    ∃ result budget, (verifyFlow awaitLoop).run ⟨false, 0, 0⟩ = .ok (result, budget) ∧
      ∃ point ∈ result.awaits, point.instruction = 0 ∧ BitSet.contains point.live 0 = true ∧
        ¬ HostScoped awaitLoop 0 := by
  have hok : ((verifyFlow awaitLoop).run ⟨false, 0, 0⟩).isOk = true := by decide +kernel
  cases hrun : (verifyFlow awaitLoop).run ⟨false, 0, 0⟩ with
  | error e =>
    rw [hrun] at hok
    cases hok
  | ok out =>
    obtain ⟨hall, hpts⟩ := verifyFlow_awaits awaitLoop hrun
    obtain ⟨point, hpt, hpc⟩ := hall 0 ⟨by decide, .refl⟩ ⟨1, 0, .builtin .bool, rfl⟩
    obtain ⟨-, hlive, hhost⟩ := hpts point hpt
    rw [hpc] at hlive
    have hread : LiveAt awaitLoop 0 0 := .here (.inl ⟨_, rfl, by decide⟩)
    exact ⟨out.1, out.2, rfl, point, hpt, hpc, hlive 0 hread, hhost 0 (hlive 0 hread)⟩

end Kagari.Bytecode
