import Kagari.Bytecode.FlowSolver

/-!
# Soundness of the flow check

A path through the graph goes from block to block along the successors (`FlowPath`), and runs every
program counter of a block before it leaves it. What the check accepts reads, at every program
counter of every path, only slots that are parameters or that the path has written before
(`verifyFlow_sound`).
-/

namespace Kagari.Bytecode

open Lib List

section Sound

variable {P : Type} (function : BytecodeFunction P)

/-- The instruction at `pc` writes `slot`. -/
def Writes (pc : Nat) (slot : Slot) : Prop :=
  ∃ instruction, function.instructions[pc]? = some instruction ∧
    instruction.slotOutput = some slot

/-- The instruction at `pc` has `slot` as an operand, or a debug range that covers `pc` names it. -/
def Reads (pc : Nat) (slot : Slot) : Prop :=
  (∃ instruction, function.instructions[pc]? = some instruction ∧
      slot ∈ instruction.slotInputs) ∨
    ∃ range ∈ function.metadata.debug.localLiveRanges, range.Covers pc ∧ range.slot = slot

/-- The program counters of a block. -/
def Block.pcs {w : Nat} (block : Block w) : List Nat :=
  List.range' block.start (block.stop - block.start)

/-- A path from the entry that has just come to a block, with the program counters it has run. -/
inductive FlowPath {w : Nat} (blocks : List (Block w)) : Nat → List Nat → Prop
  | entry : FlowPath blocks 0 []
  | step {b next : Nat} {trace : List Nat} {block : Block w} : FlowPath blocks b trace →
      blocks[b]? = some block → next ∈ block.successors →
      FlowPath blocks next (trace ++ block.pcs)

variable {w : Nat}

theorem FlowPath.reaches {blocks : List (Block w)} {b : Nat} {trace : List Nat}
    (h : FlowPath blocks b trace) : Reaches blocks b := by
  induction h with
  | entry => exact .entry
  | step _ hb hs ih =>
    refine .step ih ?_
    simpa [succs, hb] using hs

/-! ## The graph -/

theorem instructionAt_spec (pc : Nat) :
    Ensures (instructionAt function pc)
      (fun instruction => function.instructions[pc]? = some instruction) := by
  unfold instructionAt
  split
  · rename_i instruction hget
    exact .pure hget
  · exact .throw

variable {function}

theorem contains_output {pc : Nat} {instruction : BytecodeInstruction P}
    (hget : function.instructions[pc]? = some instruction) {words : BitVec w} {slot : Slot}
    (h : BitSet.contains (instruction.slotOutput.elim words (BitSet.insert words)) slot = true) :
    BitSet.contains words slot = true ∨ Writes function pc slot := by
  cases hout : instruction.slotOutput with
  | none =>
    rw [hout] at h
    exact .inl h
  | some output =>
    rw [hout] at h
    rcases BitSet.contains_insert.mp h with h | ⟨rfl, -⟩
    · exact .inl h
    · exact .inr ⟨instruction, hget, hout⟩

variable (function) (availability : List DebugNode)

theorem scanBlock_spec (pcs : List Nat) : ∀ uses defines : BitVec w,
    Ensures (scanBlock function availability pcs uses defines) (fun out =>
      ∀ slot, BitSet.contains out.2 slot = true →
        BitSet.contains defines slot = true ∨ ∃ pc ∈ pcs, Writes function pc slot) := by
  induction pcs with
  | nil =>
    intro uses defines
    exact .pure (fun slot h => .inl h)
  | cons pc pcs ih =>
    intro uses defines
    refine .bind Ensures.any (fun slots _ => .seq ?_)
    refine .bind (instructionAt_spec function pc) (fun instruction hget => ?_)
    refine (ih _ _).mono (fun out hout slot hslot => ?_)
    rcases hout slot hslot with h | ⟨later, hmem, hw⟩
    · rcases contains_output hget h with h | h
      · exact .inl h
      · exact .inr ⟨pc, by simp, h⟩
    · exact .inr ⟨later, by simp [hmem], hw⟩

/-- A block as the graph builds it, before the edges back. -/
structure Fresh {w : Nat} (count : Nat) (block : Block w) : Prop where
  edges : ∀ next ∈ block.successors, next < count
  written : ∀ slot, BitSet.contains block.defines slot = true → ∃ pc ∈ block.pcs, Writes function pc slot
  unreached : block.reachable = false
  full : block.initialized = BitVec.allOnes w

theorem successor_spec (leaders : List Nat) (pc : Nat) :
    Ensures (successor leaders pc) (fun index => index < leaders.length) := by
  unfold successor
  split
  · rename_i index hidx
    refine .pure ?_
    rw [List.idxOf?, findIdx?_eq_some_iff_getElem] at hidx
    exact hidx.1
  · exact .throw

theorem mapM_successor_spec (leaders : List Nat) (targets : List Nat) :
    Ensures (targets.mapM (successor leaders)) (fun edges => ∀ e ∈ edges, e < leaders.length) := by
  induction targets with
  | nil => exact .pure (by simp)
  | cons target targets ih =>
    rw [mapM_cons]
    refine .bind (successor_spec leaders target) (fun index hidx => ?_)
    refine .bind ih (fun edges hedg => ?_)
    exact .pure (forall_mem_cons.mpr ⟨hidx, hedg⟩)

theorem successorsOf_spec (leaders : List Nat) (stop : Nat) (last : BytecodeInstruction P) :
    Ensures (successorsOf leaders stop last) (fun edges => ∀ e ∈ edges, e < leaders.length) := by
  unfold successorsOf
  split
  · exact mapM_successor_spec leaders _
  · refine .bind (successor_spec leaders stop) (fun index hidx => ?_)
    exact .pure (by simpa using hidx)

theorem buildBlocks_spec (leaders rest : List Nat) :
    Ensures (buildBlocks function availability leaders rest) (fun blocks =>
      blocks.length = rest.length ∧ ∀ block ∈ blocks, Fresh function leaders.length block) := by
  induction rest with
  | nil => exact .pure ⟨rfl, by simp⟩
  | cons start rest ih =>
    refine .bind (scanBlock_spec function availability _ 0 0) ?_
    rintro ⟨uses, defines⟩ hdefines
    dsimp only
    split
    · exact .throw
    · rename_i hstop
      refine .bind (instructionAt_spec function _) (fun last hlast => ?_)
      refine .bind (successorsOf_spec leaders _ last) (fun edges hedg => ?_)
      refine .bind ih (fun blocks hblks => ?_)
      refine .pure ⟨by simp [hblks.1], List.forall_mem_cons.mpr ⟨?_, hblks.2⟩⟩
      refine ⟨hedg, fun slot hslot => ?_, rfl, rfl⟩
      rcases hdefines slot hslot with h | h
      · simp at h
      · -- the last instruction exists, so the block ends inside the code
        have hlt := (List.getElem?_eq_some_iff.mp hlast).1
        rw [Nat.min_eq_left (by omega)] at h
        exact h

theorem mem_predecessorsOf (blocks : List (Block w)) (b next : Nat) :
    b ∈ predecessorsOf blocks next ↔ next ∈ succs blocks b := by
  simp only [predecessorsOf, List.mem_flatMap, List.mem_range, succs]
  constructor
  · rintro ⟨previous, -, hmem⟩
    cases hb : blocks[previous]? with
    | none => simp [hb] at hmem
    | some block =>
      obtain ⟨h, rfl⟩ : next ∈ block.successors ∧ b = previous := by simpa [hb] using hmem
      simpa [hb] using h
  · intro hmem
    cases hb : blocks[b]? with
    | none => simp [hb] at hmem
    | some block =>
      refine ⟨b, (List.getElem?_eq_some_iff.mp hb).1, ?_⟩
      simpa [hb] using hmem

theorem graph_spec :
    Ensures (graph function availability) (fun blocks =>
      Wired blocks ∧ ∀ block ∈ blocks, Fresh function blocks.length block) := by
  refine .bind Ensures.any (fun leaders _ => ?_)
  dsimp only
  split
  · exact .throw
  · refine .bind (buildBlocks_spec function availability leaders leaders) ?_
    rintro blocks ⟨hlen, hfr⟩
    refine .pure ?_
    have hget : ∀ b : Nat, (blocks.mapIdx fun index block =>
        { block with predecessors := predecessorsOf blocks index })[b]? =
        (blocks[b]?).map fun block => { block with predecessors := predecessorsOf blocks b } := by
      intro b
      rw [getElem?_mapIdx]
    have hsuccs : succs (blocks.mapIdx fun index block =>
        { block with predecessors := predecessorsOf blocks index }) = succs blocks := by
      funext b
      unfold succs
      rw [hget]
      cases blocks[b]? <;> rfl
    refine ⟨⟨fun b next hnext => ?_, fun b next => ?_⟩, fun block hblk => ?_⟩
    · rw [hsuccs] at hnext
      cases hb : blocks[b]? with
      | none => simp [succs, hb] at hnext
      | some block =>
        rw [length_mapIdx, hlen]
        exact (hfr block (mem_of_getElem? hb)).edges next (by simpa [succs, hb] using hnext)
    · rw [hsuccs, length_mapIdx]
      unfold preds
      rw [hget]
      by_cases hlt : next < blocks.length
      · simp [mem_predecessorsOf, hlt]
      · simp [hlt]
    · obtain ⟨i, hi, rfl⟩ := mem_mapIdx.mp hblk
      have h := hfr blocks[i] (getElem_mem hi)
      rw [length_mapIdx, hlen]
      exact ⟨h.edges, h.written, h.unreached, h.full⟩

/-! ## The fixed points -/

/-- The second fixed point leaves the first one alone. -/
theorem propagateLoop_liveness (fuel : Nat) :
    ∀ (pending : List Nat) (queued : List Bool) (blocks : List (Block w)),
      Ensures (propagateLoop function .liveness fuel pending queued blocks) (fun out =>
        SameGraph out blocks ∧ assignment out = assignment blocks) := by
  induction fuel with
  | zero =>
    intro pending queued blocks
    cases pending with
    | nil => exact .pure ⟨.refl blocks, rfl⟩
    | cons index pending => exact .throw
  | succ fuel ih =>
    intro pending queued blocks
    cases pending with
    | nil => exact .pure ⟨.refl blocks, rfl⟩
    | cons index pending =>
      refine .bind Ensures.any (fun block _ => .seq ?_)
      dsimp only
      split
      · exact ih _ _ _
      · refine .bind Ensures.any ?_
        rintro ⟨pending', queued'⟩ -
        refine (ih _ _ _).mono (fun out hout => ⟨hout.1.trans (.setCurrent _ _ _ _), ?_⟩)
        rw [hout.2]
        funext b
        simp only [assignment, initializedAt, getElem?_modify, setCurrent]
        split <;> cases blocks[b]? <;> rfl

/-- What the check of the program points starts from: the marks are the blocks on a path, and the
values are the greatest solution. -/
structure Solved {w : Nat} (graph blocks : List (Block w)) : Prop where
  shape : blocks.map Block.shape = graph.map Block.shape
  reached : ∀ b, isReachable blocks b = true ↔ Reaches graph b
  greatest : assignment blocks = (equations function blocks).gfp

theorem fixedPoints_spec {graph marked : List (Block w)} (hw : Wired graph)
    (hfr : ∀ block ∈ graph, block.initialized = BitVec.allOnes w)
    (hsame : SameValues marked graph)
    (hmarks : ∀ b, isReachable marked b = true ↔ Reaches graph b) :
    Ensures (fixedPoints function marked) (Solved function graph) := by
  have hwm : Wired marked := hw.of_shape hsame.shape
  have hne : 0 < marked.length := by
    obtain ⟨block, hblk, -⟩ := (Option.any_eq_true _ _).mp ((hmarks 0).mpr .entry)
    exact (List.getElem?_eq_some_iff.mp hblk).1
  have htop : ∀ block ∈ marked, block.initialized = BitVec.allOnes w := by
    intro block hblk
    have hmem : block.initialized ∈ marked.map (·.initialized) := List.mem_map_of_mem hblk
    rw [hsame.initialized] at hmem
    obtain ⟨source, hsrc, heq⟩ := List.mem_map.mp hmem
    rw [← heq]
    exact hfr source hsrc
  refine .bind (postorder_spec function hwm hne) (fun order hord => ?_)
  refine .bind (propagate_spec function hwm htop order (fun b => ?_)) ?_
  · rw [hord, hmarks]
    exact ⟨.of_shape hsame.shape.symm, .of_shape hsame.shape⟩
  rintro solved ⟨hsol, hgreatest⟩
  refine .seq ((propagateLoop_liveness function _ _ _ _).mono ?_)
  rintro out ⟨hout, hassign⟩
  have hall : SameGraph out marked := hout.trans hsol
  refine ⟨hall.shape.trans hsame.shape, fun b => ?_, ?_⟩
  · rw [hall.isReachable_eq]
    exact hmarks b
  · rw [hassign, hgreatest, hall.equations_eq function]

/-! ## Program points -/

variable {availability} in
theorem inputs_spec (h : DebugAvailability.IndexOf function.metadata.debug.localLiveRanges availability)
    (pc : Nat) :
    Ensures (inputs function availability pc) (fun slots =>
      ∀ slot, Reads function pc slot → slot ∈ slots) := by
  refine Ensures.bind (instructionAt_spec function pc) (fun instruction hget => ?_)
  refine Ensures.bind (DebugAvailability.visit_covers h pc) (fun slots hsl => ?_)
  refine Ensures.pure (fun slot hread => ?_)
  rcases hread with ⟨found, hfnd, hmem⟩ | ⟨range, hrng, hcovs, rfl⟩
  · obtain rfl : instruction = found := by
      rw [hget] at hfnd
      exact Option.some.inj hfnd
    exact mem_append_left _ hmem
  · exact mem_append_right _ (hsl range hrng hcovs)

/-- From `before` on, a slot is read only where it is initialized or was written since. -/
def Guarded {w : Nat} (initialized : BitVec w) (pcs : List Nat) : Prop :=
  ∀ before pc after, pcs = before ++ pc :: after → ∀ slot, Reads function pc slot →
    BitSet.contains initialized slot = true ∨ ∃ earlier ∈ before, Writes function earlier slot

variable {availability} in
theorem checkInitialized_spec
    (h : DebugAvailability.IndexOf function.metadata.debug.localLiveRanges availability)
    (pcs : List Nat) : ∀ initialized : BitVec w,
    Ensures (checkInitialized function availability pcs initialized)
      (fun _ => Guarded function initialized pcs) := by
  induction pcs with
  | nil =>
    intro initialized
    refine .pure (fun before pc after hspl => ?_)
    simp at hspl
  | cons first pcs ih =>
    intro initialized
    refine .bind (instructionAt_spec function first) (fun instruction hget => ?_)
    refine .bind (inputs_spec function h first) (fun slots hsl => .seq ?_)
    split
    · exact .throw
    · rename_i hall
      refine (ih _).mono (fun _ hrest before pc after hspl slot hread => ?_)
      cases before with
      | nil =>
        obtain ⟨rfl, -⟩ := cons.inj hspl
        have hslot := hsl slot hread
        refine .inl ?_
        by_contra hnot
        exact hall (any_eq_true.mpr ⟨slot, hslot, by simpa using hnot⟩)
      | cons head before =>
        obtain ⟨rfl, htail⟩ := cons.inj hspl
        rcases hrest before pc after htail slot hread with hin | ⟨earlier, hmem, hw⟩
        · rcases contains_output hget hin with hin | hw
          · exact .inl hin
          · exact .inr ⟨first, by simp, hw⟩
        · exact .inr ⟨earlier, by simp [hmem], hw⟩

variable {availability} in
theorem checkBlocks_spec
    (h : DebugAvailability.IndexOf function.metadata.debug.localLiveRanges availability)
    (all : List (Block w)) (blocks : List (Block w)) : ∀ index,
    Ensures (checkBlocks function availability all blocks index) (fun _ =>
      ∀ i block, blocks[i]? = some block → block.reachable = true →
        Guarded function (incoming function all (index + i) block) block.pcs) := by
  induction blocks with
  | nil =>
    intro index
    exact .pure (by simp)
  | cons first blocks ih =>
    intro index
    have hcons : ∀ {m : FlowM (List (AwaitLiveness w))},
        Ensures m (fun _ => ∀ i block, blocks[i]? = some block → block.reachable = true →
          Guarded function (incoming function all (index + 1 + i) block) block.pcs) →
        (first.reachable = true →
          Guarded function (incoming function all index first) first.pcs) →
        Ensures m (fun _ => ∀ i block, (first :: blocks)[i]? = some block →
          block.reachable = true →
          Guarded function (incoming function all (index + i) block) block.pcs) := by
      intro m hm hfst
      refine hm.mono (fun _ hrest i block hget hr => ?_)
      cases i with
      | zero =>
        obtain rfl : first = block := by simpa using hget
        exact hfst hr
      | succ i =>
        rw [show index + (i + 1) = index + 1 + i by omega]
        exact hrest i block (by simpa using hget) hr
    unfold checkBlocks
    split
    · refine .bind (checkInitialized_spec function h _ _) (fun _ hfst => ?_)
      refine .bind Ensures.any (fun points _ => hcons ?_ (fun _ => hfst))
      exact .bind (ih (index + 1)) (fun rest hrest => .pure hrest)
    · rename_i hr
      exact hcons (ih (index + 1)) (fun h => absurd h hr)

/-! ## Paths -/

/-- The slot is a parameter, or one of the program counters writes it. -/
def Defined (trace : List Nat) (slot : Slot) : Prop :=
  slot ∈ function.metadata.parameterSlots ∨ ∃ pc ∈ trace, Writes function pc slot

/-- A path passes the blocks of a walk, one after the other. -/
theorem FlowPath.walk {graph : List (Block w)} {b : Nat} {trace : List Nat}
    (h : FlowPath graph b trace) :
    ∃ blocks, Dataflow.Walk (fun b c => c ∈ succs graph b) 0 b blocks ∧
      ∀ p ∈ blocks, ∃ block, graph[p]? = some block ∧ block.pcs ⊆ trace := by
  induction h with
  | entry => exact ⟨[], .entry, by simp⟩
  | @step b next trace block _ hblk hnext ih =>
    obtain ⟨blocks, hwalk, hall⟩ := ih
    refine ⟨blocks ++ [b], hwalk.step (by simpa [succs, hblk] using hnext), ?_⟩
    intro p hp
    rcases mem_append.mp hp with hp | hp
    · obtain ⟨found, hfnd, hsub⟩ := hall p hp
      exact ⟨found, hfnd, fun pc hpc => mem_append_left _ (hsub hpc)⟩
    · rw [mem_singleton.mp hp]
      exact ⟨block, hblk, fun pc hpc => mem_append_right _ hpc⟩

theorem reaches_of_walk {graph : List (Block w)} {b : Nat} {blocks : List Nat}
    (h : Dataflow.Walk (fun b c => c ∈ succs graph b) 0 b blocks) : Reaches graph b := by
  induction h with
  | entry => exact .entry
  | step _ hedge ih => exact .step ih hedge

/-- A solution of the equations is below what every path has written. -/
theorem into_path {graph blocks : List (Block w)} (hw : Wired graph)
    (hfr : ∀ block ∈ graph, Fresh function graph.length block)
    (h : Solved function graph blocks) {b : Nat} {trace : List Nat} (hpath : FlowPath graph b trace)
    (slot : Fin w) (hslot : slot ∈ (flowGraph function blocks).into (assignment blocks) b) :
    Defined function trace slot := by
  obtain ⟨passed, hwalk, hpass⟩ := hpath.walk
  have hfix : assignment blocks = (flowGraph function blocks).equations (assignment blocks) := by
    rw [h.greatest]
    exact (OrderHom.map_gfp _).symm
  have hlive : ∀ c walk, Dataflow.Walk (fun b c => c ∈ succs graph b) 0 c walk →
      isReachable blocks c = true :=
    fun c walk hc => (h.reached c).mpr (reaches_of_walk hc)
  have hpreds : ∀ c next, next ∈ succs graph c → next ≠ 0 → isReachable blocks c = true →
      c ∈ preds blocks next := by
    intro c next hedge _ _
    rw [preds_of_shape h.shape]
    exact (hw.back c next).mpr ⟨hedge, hw.inRange c next hedge⟩
  rcases Dataflow.into_sound hfix hlive hpreds hwalk slot hslot with hinit | ⟨p, hp, hgen⟩
  · rcases BitSet.contains_foldl_insert.mp hinit with h | ⟨h, -⟩
    · simp at h
    · exact .inl h
  · obtain ⟨block, hblk, hsub⟩ := hpass p hp
    have hdefs : defs blocks p = block.defines := by
      rw [defs_of_shape h.shape]
      simp [defs, hblk]
    have hgen' : slot ∈ BitSet.toSet block.defines := hdefs ▸ hgen
    obtain ⟨pc, hpc, hwrs⟩ := (hfr block (mem_of_getElem? hblk)).written slot hgen'
    exact .inr ⟨pc, hsub hpc, hwrs⟩

/-- A graph that `graph` returns. -/
def Built (blocks : List (Block (width function))) : Prop :=
  ∃ availability budget budget', (graph function availability).run budget = .ok (blocks, budget')

/-- No path of the graph reads a slot that it has not written. -/
def PathsDefined {w : Nat} (graph : List (Block w)) : Prop :=
  ∀ b trace block before pc after, FlowPath graph b trace → graph[b]? = some block →
    block.pcs = before ++ pc :: after → ∀ slot, Reads function pc slot →
    Defined function (trace ++ before) slot

theorem checkBlocks_sound {graph blocks : List (Block w)} (hw : Wired graph)
    (hfr : ∀ block ∈ graph, Fresh function graph.length block)
    (h : Solved function graph blocks)
    (hchk : ∀ i block, blocks[i]? = some block → block.reachable = true →
      Guarded function (incoming function blocks i block) block.pcs) :
    PathsDefined function graph := by
  intro b trace source before pc after hpath hsrc hspl slot hread
  have hrch : isReachable blocks b = true := (h.reached b).mpr hpath.reaches
  obtain ⟨block, hblk, hmark⟩ := (Option.any_eq_true _ _).mp hrch
  have hpcs : block.pcs = source.pcs := by
    have hshp := congrArg (fun shapes => shapes[b]?) h.shape
    simp only [getElem?_map, hblk, hsrc, Option.map_some, Option.some.injEq] at hshp
    have hst : block.start = source.start := congrArg (·.1) hshp
    have hstop : block.stop = source.stop := congrArg (·.2.1) hshp
    unfold Block.pcs
    rw [hst, hstop]
  rw [← hpcs] at hspl
  rcases hchk b block hblk hmark before pc after hspl slot hread with hin | ⟨e, he, hwrs⟩
  · obtain ⟨hlt, hmem⟩ := BitSet.contains_iff.mp hin
    rw [toSet_incoming function hblk] at hmem
    rcases into_path function hw hfr h hpath ⟨slot, hlt⟩ hmem with hparam | ⟨e, he, hwrs⟩
    · exact .inl hparam
    · exact .inr ⟨e, by simp [he], hwrs⟩
  · exact .inr ⟨e, by simp [he], hwrs⟩

theorem verifyFlow_spec :
    Ensures (verifyFlow function) (fun result =>
      ∃ graph availability, DebugAvailability.IndexOf function.metadata.debug.localLiveRanges availability ∧
        (∃ budget budget', (Bytecode.graph function availability).run budget = .ok (graph, budget')) ∧
        Wired graph ∧ Solved function graph result.blocks ∧ PathsDefined function graph) := by
  unfold verifyFlow
  split
  · exact Ensures.throw
  split
  · exact Ensures.throw
  refine Ensures.bind (DebugAvailability.new_spec _) (fun availability havail => ?_)
  refine Ensures.bind ((graph_spec function availability).and Ensures.returned) ?_
  rintro graph ⟨⟨hw, hfr⟩, budget, budget', hrun⟩
  refine Ensures.bind (reachability_spec function fun block hb => (hfr block hb).unreached) ?_
  rintro marked ⟨hsame, hmarks⟩
  refine Ensures.bind
    (fixedPoints_spec function hw (fun block hb => (hfr block hb).full) hsame hmarks) ?_
  intro blocks hsol
  refine Ensures.bind (P := fun _ => PathsDefined function graph) ?_ (fun awaits hpth => ?_)
  · refine Ensures.bind (checkBlocks_spec function havail blocks blocks 0) (fun points hchk => ?_)
    refine Ensures.pure (checkBlocks_sound function hw hfr hsol ?_)
    intro i block hget hr
    have h := hchk i block hget hr
    rwa [Nat.zero_add] at h
  · exact Ensures.pure ⟨graph, availability, havail, ⟨budget, budget', hrun⟩, hw, hsol, hpth⟩

end Sound

end Kagari.Bytecode
