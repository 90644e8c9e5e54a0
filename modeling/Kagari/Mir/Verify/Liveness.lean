import Kagari.Mir.VerifySound

/-!
# The recorded live sets

What the verifier records before a terminator (`record_liveness`) covers every temporary that is read
later, before it is written (`LiveSound`): the worklist of `live_entries` ends at a solution of the
backward equations.
-/

namespace Kagari.Mir

open Lib Function List Option

variable {b : BlockId} {k : Nat}

section Liveness

variable {P : Type} (f : MirFunction P) (context : Context) {w : Nat}

/-! ## The equations -/

/-- What is live before a terminator. -/
def terminatorState (index : BlockId) (points : List (PointAnalysis w)) (entries : BlockId → BitVec w) :
    BitVec w :=
  ((f.terminatorAt index).bind (·.input)).elim
    ((f.successorsAt index).foldl (fun state next => state ||| entries next)
      ((points.getLast?).elim 0 (·.debugAvailable)))
    fun v => BitSet.insert ((f.successorsAt index).foldl (fun state next => state ||| entries next)
      ((points.getLast?).elim 0 (·.debugAvailable))) v.temp

/-- What is live before an instruction. -/
def liveBefore (entry : Instruction P × PointAnalysis w) (state : BitVec w) : BitVec w :=
  let state := (definedSlots f entry.1).foldl BitSet.remove state
  let state := (entry.1.inputs.map (·.temp)).foldl BitSet.insert state
  let state := match entry.1 with
    | .loadLocal _ l => BitSet.insert state (f.temps.length + l)
    | _ => state
  state ||| entry.2.debugAvailable

/-- What is live at the start of a block. -/
def blockState (index : BlockId) (points : List (PointAnalysis w)) (entries : BlockId → BitVec w) :
    BitVec w :=
  (reversedPoints f index points).foldl (fun state entry => liveBefore f entry state)
    (terminatorState f index points entries)

theorem liveAtTerminator_spec (index : BlockId) (points : List (PointAnalysis w))
    (entries : BlockId → BitVec w) :
    Ensures (liveAtTerminator f context index points entries)
      (fun out => out = terminatorState f index points entries) :=
  Ensures.seq (.pure rfl)

theorem transferAll_spec (code : List (Instruction P × PointAnalysis w)) : ∀ state : BitVec w,
    Ensures (transferAll f context code state)
      (fun out => out = code.foldl (fun state entry => liveBefore f entry state) state) := by
  induction code with
  | nil => exact fun state => .pure rfl
  | cons entry code ih =>
    intro state
    refine .bind (P := fun out => out = liveBefore f entry state) ?_ ?_
    · exact .seq (.pure rfl)
    · rintro _ rfl
      exact ih _

variable {points : List (PointAnalysis w)} {state : BitVec w} {i : Instruction P}

/-- The equation of a block reads only its successors. -/
theorem blockState_update {index b : BlockId}
    {entries : BlockId → BitVec w} (h : ¬f.Edge b index) :
    blockState f b points (update entries index state) = blockState f b points entries := by
  have hfold : ∀ (targets : List BlockId) (first : BitVec w), index ∉ targets →
      targets.foldl (fun s next => s ||| update entries index state next) first =
        targets.foldl (fun s next => s ||| entries next) first := by
    intro targets
    induction targets with
    | nil => exact fun first _ => rfl
    | cons target targets ih =>
      intro first hnot
      simp only [mem_cons, not_or] at hnot
      obtain ⟨hne, hrest⟩ := hnot
      rw [foldl_cons, foldl_cons, update_of_ne (Ne.symm hne), ih _ hrest]
  unfold blockState terminatorState
  rw [hfold _ _ h]

/-! ## The worklist -/

def pointsAt (blocks : FunctionAnalysis w) (index : BlockId) : List (PointAnalysis w) :=
  (blocks[index]?).elim [] (·.points)

/-- Every reachable block is waiting, or its equation holds. -/
structure LiveSolving (reachable : BlockId → Bool) (blocks : FunctionAnalysis w) (queue : List BlockId)
    (queued : BlockId → Bool) (entries : BlockId → BitVec w) : Prop where
  waiting : ∀ b, queued b = true → b ∈ queue
  solved : ∀ b, reachable b = true → b ∈ queue ∨
    entries b = blockState f b (pointsAt blocks b) entries

variable {f} {reachable : BlockId → Bool} {predecessors : BlockId → List BlockId}
  {blocks : FunctionAnalysis w} {index : BlockId} {queue : List BlockId} {queued : BlockId → Bool}
  {entries : BlockId → BitVec w}

theorem LiveSolving.pop (h : LiveSolving f reachable blocks (index :: queue) queued entries)
    (b : BlockId) (hb : update queued index false b = true) : b ∈ queue := by
  by_cases hbi : b = index
  · simp [hbi] at hb
  · rw [update_of_ne hbi] at hb
    exact (mem_cons.mp (h.waiting b hb)).resolve_left hbi

theorem LiveSolving.skip (h : LiveSolving f reachable blocks (index :: queue) queued entries)
    (heq : blockState f index (pointsAt blocks index) entries = entries index) :
    LiveSolving f reachable blocks queue (update queued index false) entries := by
  refine ⟨h.pop, fun b hb => ?_⟩
  rcases h.solved b hb with hmem | hsol
  · rcases mem_cons.mp hmem with rfl | hmem
    · exact .inr heq.symm
    · exact .inl hmem
  · exact .inr hsol

theorem LiveSolving.update (hr : Reachable f reachable predecessors)
    (h : LiveSolving f reachable blocks (index :: queue) queued entries) :
    LiveSolving f reachable blocks
      (enqueueTargets (predecessors index) queue (update queued index false)).1
      (enqueueTargets (predecessors index) queue (update queued index false)).2
      (update entries index (blockState f index (pointsAt blocks index) entries)) := by
  obtain ⟨hwait, hmem⟩ := enqueueTargets_spec (predecessors index) queue _ h.pop
  refine ⟨hwait, fun b hb => ?_⟩
  by_cases hedge : f.Edge b index
  · exact .inl ((hmem b).mpr (.inr ((hr.preds b index).mpr ⟨hb, hedge⟩)))
  · rw [blockState_update f hedge]
    by_cases hbi : b = index
    · subst hbi
      exact .inr (update_self _ _ _)
    · rw [update_of_ne hbi]
      rcases h.solved b hb with hin | hsol
      · exact .inl ((hmem b).mpr (.inl ((mem_cons.mp hin).resolve_left hbi)))
      · exact .inr hsol

variable (f)

/-- Entries that single turns lead to, from nothing live anywhere. -/
inductive Iterated (blocks : FunctionAnalysis w) : (BlockId → BitVec w) → Prop
  | start : Iterated blocks (fun _ => 0)
  | turn {entries : BlockId → BitVec w} (index : BlockId) : Iterated blocks entries →
      Iterated blocks
        (update entries index (blockState f index (pointsAt blocks index) entries))

theorem liveLoop_spec (initialized : Initialization w)
    (hr : Reachable f initialized.reachable initialized.predecessors) (fuel : Nat) :
    ∀ queue queued entries, LiveSolving f initialized.reachable blocks queue queued entries →
      Iterated f blocks entries →
      Ensures (liveLoop f context initialized blocks fuel queue queued entries) (fun out =>
        Iterated f blocks out ∧
        ∀ b, initialized.reachable b = true → out b = blockState f b (pointsAt blocks b) out) := by
  induction fuel with
  | zero =>
    intro queue queued entries h hturns
    cases queue with
    | nil => exact .pure ⟨hturns, fun b hb => (h.solved b hb).resolve_left (by simp)⟩
    | cons index queue => exact .throw
  | succ fuel ih =>
    intro queue queued entries h hturns
    cases queue with
    | nil => exact .pure ⟨hturns, fun b hb => (h.solved b hb).resolve_left (by simp)⟩
    | cons index queue =>
      refine .bind (liveAtTerminator_spec f context _ _ _) ?_
      rintro _ rfl
      refine .bind (transferAll_spec f context _ _) ?_
      rintro _ rfl
      split
      · rename_i heq
        exact ih _ _ _ (h.skip heq) hturns
      · exact ih _ _ _ (h.update hr) (.turn index hturns)

/-! ## The records -/

/-- Nothing is recorded at the point as yet; in a block that is not reachable nothing is available there either. -/
structure PointAnalysis.Initial (reachable : Bool) (point : PointAnalysis w) : Prop where
  live : point.live = 0
  roots : point.roots = 0
  debugAvailable : reachable = false → point.debugAvailable = 0

theorem debugPointsOf_spec (reachable : Bool) (block : BasicBlock P) (scopes : List Nat) :
    ∀ (offset : Nat) (state : BitVec w),
      Ensures (debugPointsOf f context reachable block scopes offset state)
        (fun points => points.length = scopes.length ∧ ∀ point ∈ points, point.Initial reachable) := by
  induction scopes with
  | nil => exact fun offset state => .pure ⟨rfl, nofun⟩
  | cons scope scopes ih =>
    intro offset state
    have havl : Ensures (debugAvailableAt f context reachable scope state) fun available =>
        reachable = false → available = 0 := by
      unfold debugAvailableAt
      split
      · rename_i hrchb
        exact Ensures.any.mono fun _ _ hno => nomatch hrchb.symm.trans hno
      · exact .pure fun _ => rfl
    refine .seq (.bind havl (fun debugAvailable hdbg => ?_))
    refine .bind (ih _ _) (fun points hpts => ?_)
    exact .pure ⟨congrArg (· + 1) hpts.1, forall_mem_cons.mpr ⟨⟨rfl, rfl, hdbg⟩, hpts.2⟩⟩

/-- A record for every block: whether it is reachable, and a point for each row and the terminator. -/
def BlockRecords (initialized : Initialization w) (code : List (BasicBlock P)) (index : BlockId)
    (blocks : FunctionAnalysis w) : Prop :=
  blocks.length = code.length ∧ ∀ k block, code[k]? = some block → ∃ record, blocks[k]? = some record ∧
    record.reachable = initialized.reachable (index + k) ∧
    record.points.length = (block.instructionScopes ++ block.terminatorScope.toList).length ∧
    ∀ point ∈ record.points, point.Initial record.reachable

theorem debugPoints_spec (initialized : Initialization w) (code : List (BasicBlock P)) : ∀ index,
    Ensures (debugPoints f context initialized code index) (BlockRecords initialized code index) := by
  induction code with
  | nil => exact fun index => .pure ⟨rfl, by simp⟩
  | cons block code ih =>
    intro index
    refine .bind (debugPointsOf_spec f context _ _ _ _ _) (fun points hpts => ?_)
    refine .bind (ih _) (fun rest hrest => .pure ⟨congrArg (· + 1) hrest.1, ?_⟩)
    intro k b hk
    cases k with
    | zero =>
      cases hk
      exact ⟨_, rfl, rfl, hpts⟩
    | succ k =>
      obtain ⟨record, hrec, hreach, hpts⟩ := hrest.2 k b hk
      refine ⟨record, hrec, ?_, hpts⟩
      exact hreach.trans (congrArg initialized.reachable (Nat.add_right_comm index 1 k))

theorem numberPoints_spec (reachable : Bool) (points : List (PointAnalysis w))
    (h : ∀ point ∈ points, point.Initial reachable) : ∀ offset,
    Ensures (numberPoints context points offset) (fun out =>
      out.1.length = points.length ∧ ∀ point ∈ out.1, point.Initial reachable) := by
  induction points with
  | nil => exact fun offset => .pure ⟨rfl, nofun⟩
  | cons point points ih =>
    intro offset
    obtain ⟨⟨hlive, hrts, hdbg⟩, htail⟩ := forall_mem_cons.mp h
    refine .seq (.bind (ih htail _) ?_)
    rintro ⟨rest, stop⟩ ⟨hlen, hrest⟩
    exact .pure ⟨congrArg (· + 1) hlen, forall_mem_cons.mpr ⟨⟨hlive, hrts, hdbg⟩, hrest⟩⟩

theorem BlockRecords.get {initialized : Initialization w} {code : List (BasicBlock P)} {index : BlockId}
    {blocks : FunctionAnalysis w} (h : BlockRecords initialized code index blocks) {k : Nat}
    {record : BlockAnalysis w} (hrec : blocks[k]? = some record) :
    record.reachable = initialized.reachable (index + k) ∧
      ∀ point ∈ record.points, point.Initial record.reachable := by
  have hlt : k < code.length := h.1 ▸ (List.getElem?_eq_some_iff.mp hrec).1
  obtain ⟨record', hrec', hreach, -, hinit⟩ := h.2 k _ (List.getElem?_eq_getElem hlt)
  cases hrec.symm.trans hrec'
  exact ⟨hreach, hinit⟩

variable {code : List (BasicBlock P)} {initialized : Initialization w}

theorem BlockRecords.set {index : BlockId}
    {blocks : FunctionAnalysis w} (h : BlockRecords initialized code index blocks)
    {record : BlockAnalysis w} (hrec : blocks[k]? = some record)
    (hpts : points.length = record.points.length ∧ ∀ point ∈ points, point.Initial record.reachable) :
    BlockRecords initialized code index (blocks.set k { record with points }) := by
  refine ⟨by rw [List.length_set, h.1], fun j block hj => ?_⟩
  obtain ⟨old, hold, hreach, hlen, hinit⟩ := h.2 j block hj
  by_cases hjk : j = k
  · subst hjk
    cases hrec.symm.trans hold
    have hlt := (List.getElem?_eq_some_iff.mp hrec).1
    exact ⟨_, List.getElem?_set_self hlt, hreach, hpts.1.trans hlen, hpts.2⟩
  · refine ⟨old, ?_, hreach, hlen, hinit⟩
    rw [List.getElem?_set_ne (Ne.symm hjk), hold]

theorem numberBlocks_spec
    {index : BlockId} (order : List BlockId) : ∀ offset (blocks : FunctionAnalysis w),
    BlockRecords initialized code index blocks →
      Ensures (numberBlocks context order offset blocks) (BlockRecords initialized code index) := by
  induction order with
  | nil => exact fun offset blocks h => .pure h
  | cons b order ih =>
    intro offset blocks h
    unfold numberBlocks
    split
    · exact ih _ _ h
    · rename_i record hrec
      refine .bind (numberPoints_spec context _ _ (h.get hrec).2 _) ?_
      rintro ⟨points, stop⟩ hpts
      exact ih _ _ (h.set hrec hpts)

/-! ## The points of a block -/

/-- What is live before row `k` of a block, or before its terminator. -/
def pointState (b : BlockId) (points : List (PointAnalysis w)) (entries : BlockId → BitVec w)
    (k : Nat) : BitVec w :=
  (((instructionsAt f b).zip points).drop k).foldr (fun entry state => liveBefore f entry state)
    (terminatorState f b points entries)

section PointState

variable {f} {b : BlockId} {points : List (PointAnalysis w)} {entries : BlockId → BitVec w}

theorem pointState_zero : pointState f b points entries 0 = blockState f b points entries := by
  unfold pointState blockState reversedPoints
  rw [drop_zero, foldl_reverse]

theorem pointState_row {point : PointAnalysis w}
    (hi : (instructionsAt f b)[k]? = some i) (hpt : points[k]? = some point) :
    pointState f b points entries k =
      liveBefore f (i, point) (pointState f b points entries (k + 1)) := by
  have hzip : ((instructionsAt f b).zip points)[k]? = some (i, point) :=
    List.getElem?_zip_eq_some.mpr ⟨hi, hpt⟩
  obtain ⟨hlt, hget⟩ := List.getElem?_eq_some_iff.mp hzip
  unfold pointState
  rw [List.drop_eq_getElem_cons hlt, hget, List.foldr_cons]

theorem pointState_end (hk : (instructionsAt f b).length ≤ k) :
    pointState f b points entries k = terminatorState f b points entries := by
  unfold pointState
  rw [drop_eq_nil_of_le, foldr_nil]
  rw [length_zip]
  omega

end PointState

/-- The records of some rows, when `state` is live after them. -/
def recordedRows : List (Instruction P × PointAnalysis w) → BitVec w → List (PointAnalysis w)
  | [], _ => []
  | row :: rows, state =>
    save f ((row :: rows).foldr (fun entry state => liveBefore f entry state) state) row.2 ::
      recordedRows rows state

/-- The same, with the last row first. -/
def recordedBack : List (Instruction P × PointAnalysis w) → BitVec w → List (PointAnalysis w)
  | [], _ => []
  | row :: rows, state => save f (liveBefore f row state) row.2 ::
      recordedBack rows (liveBefore f row state)

theorem recordPoints_spec (rows : List (Instruction P × PointAnalysis w)) : ∀ state : BitVec w,
    Ensures (recordPoints f context rows state) (fun out => out = recordedBack f rows state) := by
  induction rows with
  | nil => exact fun state => .pure rfl
  | cons row rows ih =>
    intro state
    refine .bind (P := fun out => out = liveBefore f row state) ?_ ?_
    · exact .seq (.pure rfl)
    · rintro _ rfl
      refine .bind (ih _) ?_
      rintro _ rfl
      exact .pure rfl

theorem recordedBack_append (rows rows' : List (Instruction P × PointAnalysis w)) :
    ∀ state : BitVec w, recordedBack f (rows ++ rows') state = recordedBack f rows state ++
      recordedBack f rows' (rows.foldl (fun state entry => liveBefore f entry state) state) := by
  induction rows with
  | nil => exact fun state => rfl
  | cons row rows ih =>
    intro state
    simp only [cons_append, recordedBack, foldl_cons]
    rw [ih]

theorem recordedBack_reverse (rows : List (Instruction P × PointAnalysis w)) (state : BitVec w) :
    (recordedBack f rows.reverse state).reverse = recordedRows f rows state := by
  induction rows with
  | nil => rfl
  | cons row rows ih =>
    rw [reverse_cons, recordedBack_append, reverse_append, ih, foldl_reverse]
    rfl

theorem recordedRows_get (rows : List (Instruction P × PointAnalysis w)) (state : BitVec w) :
    ∀ k, (recordedRows f rows state)[k]? = rows[k]?.map fun row =>
      save f ((rows.drop k).foldr (fun entry state => liveBefore f entry state) state) row.2 := by
  induction rows with
  | nil => exact fun k => by simp [recordedRows]
  | cons row rows ih =>
    intro k
    cases k with
    | zero => rfl
    | succ k => exact ih k

/-- The record of a block, when `entries` are live at the start of its successors. -/
def recordedBlock (index : BlockId) (entries : BlockId → BitVec w) (block : BlockAnalysis w) :
    BlockAnalysis w :=
  if block.reachable then
    let state := terminatorState f index block.points entries
    { block with points := recordedRows f ((instructionsAt f index).zip block.points) state ++
        ((block.points.getLast?).map (save f state)).toList }
  else block

theorem recordedBlock_get {index : BlockId} {entries : BlockId → BitVec w} {block : BlockAnalysis w}
    (hrch : block.reachable = true)
    (hlen : block.points.length = (instructionsAt f index).length + 1) (k : Nat) :
    (recordedBlock f index entries block).points[k]? =
      block.points[k]?.map (save f (pointState f index block.points entries k)) := by
  unfold recordedBlock
  rw [if_pos hrch]
  dsimp only
  have hrows : (recordedRows f ((instructionsAt f index).zip block.points)
      (terminatorState f index block.points entries)).length = (instructionsAt f index).length := by
    have hsize : ∀ (rows : List (Instruction P × PointAnalysis w)) (state : BitVec w),
        (recordedRows f rows state).length = rows.length := by
      intro rows state
      induction rows with
      | nil => rfl
      | cons row rows ih => exact congrArg (· + 1) ih
    rw [hsize, length_zip]
    omega
  by_cases hk : k < (instructionsAt f index).length
  · rw [getElem?_append_left (by omega), recordedRows_get]
    have hpt : k < block.points.length := by omega
    have hzip : ((instructionsAt f index).zip block.points)[k]? =
        some ((instructionsAt f index)[k], block.points[k]) :=
      getElem?_zip_eq_some.mpr ⟨getElem?_eq_getElem hk, getElem?_eq_getElem hpt⟩
    rw [hzip, getElem?_eq_getElem hpt]
    rfl
  · rw [getElem?_append_right (by omega), hrows, pointState_end (by omega)]
    have hne : block.points ≠ [] := ne_nil_of_length_pos (by omega)
    rw [getLast?_eq_some_getLast hne]
    by_cases hend : k = (instructionsAt f index).length
    · subst hend
      have hlast : block.points.getLast hne = block.points[(instructionsAt f index).length] := by
        rw [getLast_eq_getElem]
        simp [hlen]
      have hget : block.points[(instructionsAt f index).length]? =
          some (block.points[(instructionsAt f index).length]) := getElem?_eq_getElem _
      rw [hget, hlast, Nat.sub_self]
      rfl
    · rw [getElem?_eq_none (by simp; omega), getElem?_eq_none (by omega)]
      rfl

theorem recordLiveness_spec (entries : BlockId → BitVec w) (blocks : FunctionAnalysis w) : ∀ index,
    Ensures (recordLiveness f context entries blocks index) (fun out =>
      ∀ k, out[k]? = blocks[k]?.map (recordedBlock f (index + k) entries)) := by
  induction blocks with
  | nil => exact fun index => .pure (by simp)
  | cons block blocks ih =>
    intro index
    have hrest : ∀ {rest : FunctionAnalysis w},
        (∀ k, rest[k]? = blocks[k]?.map (recordedBlock f (index + 1 + k) entries)) →
        ∀ k, (recordedBlock f index entries block :: rest)[k]? =
          (block :: blocks)[k]?.map (recordedBlock f (index + k) entries) := by
      intro rest h k
      cases k with
      | zero => rfl
      | succ k =>
        rw [getElem?_cons_succ, getElem?_cons_succ, h k, Nat.add_right_comm index 1 k]
        rfl
    unfold recordLiveness
    by_cases hrch : block.reachable = true
    · rw [if_pos hrch]
      refine .bind (liveAtTerminator_spec f context _ _ _) ?_
      rintro _ rfl
      refine .bind (recordPoints_spec f context _ _) ?_
      rintro _ rfl
      refine .bind (ih _) (fun rest h => .pure ?_)
      have hblk := hrest h
      unfold recordedBlock at hblk
      rw [if_pos hrch] at hblk
      unfold reversedPoints
      rw [recordedBack_reverse]
      exact hblk
    · rw [if_neg hrch]
      refine .bind (ih _) (fun rest h => .pure ?_)
      have hblk := hrest h
      rw [recordedBlock, if_neg hrch] at hblk
      exact hblk

/-! ## Reads and live sets -/

/-- The slots that an instruction reads: its operands, or the local it loads. -/
def readSlots (i : Instruction P) : List Nat :=
  i.inputs.map (·.temp) ++
    match i with
    | .loadLocal _ l => [f.temps.length + l]
    | _ => []

theorem contains_liveBefore {entry : Instruction P × PointAnalysis w} {s : Nat} :
    BitSet.contains (liveBefore f entry state) s = true ↔
      (s ∈ readSlots f entry.1 ∧ s < w) ∨
      (BitSet.contains state s = true ∧ s ∉ definedSlots f entry.1) ∨
      BitSet.contains entry.2.debugAvailable s = true := by
  have hread : BitSet.contains ((entry.1.inputs.map (·.temp)).foldl BitSet.insert
      ((definedSlots f entry.1).foldl BitSet.remove state)) s = true ↔
      (BitSet.contains state s = true ∧ s ∉ definedSlots f entry.1) ∨
      (s ∈ entry.1.inputs.map (·.temp) ∧ s < w) := by
    rw [BitSet.contains_foldl_insert, BitSet.contains_foldl_remove]
  unfold liveBefore readSlots
  dsimp only
  rw [BitSet.contains_or]
  split
  · rw [BitSet.contains_insert, hread, mem_append, mem_singleton]
    tauto
  · rw [hread, append_nil]
    tauto

theorem contains_terminatorState
    {entries : BlockId → BitVec w} {s : Nat} :
    BitSet.contains (terminatorState f b points entries) s = true ↔
      (∃ v, (f.terminatorAt b).bind (·.input) = some v ∧ v.temp = s ∧ s < w) ∨
      (∃ c, f.Edge b c ∧ BitSet.contains (entries c) s = true) ∨
      BitSet.contains ((points.getLast?).elim 0 (·.debugAvailable)) s = true := by
  have hjoined : BitSet.contains ((f.successorsAt b).foldl
      (fun state next => state ||| entries next) ((points.getLast?).elim 0 (·.debugAvailable))) s =
        true ↔ BitSet.contains ((points.getLast?).elim 0 (·.debugAvailable)) s = true ∨
          ∃ c, f.Edge b c ∧ BitSet.contains (entries c) s = true :=
    BitSet.contains_foldl_or
  unfold terminatorState
  cases (f.terminatorAt b).bind (·.input) with
  | none =>
    rw [elim_none, hjoined]
    simp only [reduceCtorEq, false_and, exists_false, false_or]
    exact or_comm
  | some v =>
    rw [elim_some, BitSet.contains_insert, hjoined]
    constructor
    · rintro ((hdbg | hnext) | ⟨rfl, hlt⟩)
      · exact .inr (.inr hdbg)
      · exact .inr (.inl hnext)
      · exact .inl ⟨v, rfl, rfl, hlt⟩
    · rintro (⟨v', hv', rfl, hlt⟩ | hnext | hdbg)
      · cases hv'
        exact .inr ⟨rfl, hlt⟩
      · exact .inl (.inr hnext)
      · exact .inl (.inl hdbg)

/-- The temporaries that some code reads before it writes them, or that are live after it. -/
def liveIn (code : List (Instruction P)) (after : TempId → Prop) : TempId → Prop :=
  code.foldr (fun i after t =>
    (∃ v ∈ i.inputs, v.temp = t) ∨ (after t ∧ ∀ dst ∈ i.output, dst.temp ≠ t)) after

/-- A temporary is written by an instruction that has it as its destination, and by no other. -/
theorem mem_definedSlots_temp {t : TempId} (ht : t < f.temps.length) :
    t ∈ definedSlots f i ↔ ∃ dst ∈ i.output, dst.temp = t := by
  have hlocal : ∀ l : LocalId, t ≠ f.temps.length + l :=
    fun l heq => absurd ht (heq ▸ Nat.not_lt.mpr (Nat.le_add_right _ _))
  unfold definedSlots
  rw [mem_append, mem_toList, map_eq_some_iff]
  constructor
  · rintro (h | h)
    · exact h
    · split at h
      · exact absurd (mem_singleton.mp h) (hlocal _)
      · cases h
  · exact .inl

theorem contains_foldr_liveBefore (hw : f.temps.length ≤ w)
    (code : List (Instruction P)) : ∀ points : List (PointAnalysis w), code.length ≤ points.length →
      ∀ t, t < f.temps.length → liveIn code (fun t => BitSet.contains state t = true) t →
        BitSet.contains ((code.zip points).foldr (fun entry state => liveBefore f entry state) state) t =
          true := by
  induction code with
  | nil => exact fun points _ t _ h => h
  | cons i code ih =>
    intro points hlen t ht h
    cases points with
    | nil => simp at hlen
    | cons point points =>
      have hlen' : code.length ≤ points.length := Nat.le_of_succ_le_succ hlen
      rw [zip_cons_cons, foldr_cons, contains_liveBefore]
      rcases h with ⟨v, hv, rfl⟩ | ⟨haft, hkept⟩
      · exact .inl ⟨mem_append_left _ (mem_map_of_mem hv), lt_of_lt_of_le ht hw⟩
      · refine .inr (.inl ⟨ih points hlen' t ht haft, ?_⟩)
        rw [mem_definedSlots_temp f ht]
        rintro ⟨dst, hdst, heq⟩
        exact hkept dst hdst heq

/-- The recorded live sets cover what is read later. -/
structure LiveSound (analysis : FunctionAnalysis w) : Prop where
  reachable : ∀ b, b < f.blocks.length → ∃ record, analysis[b]? = some record ∧
    (record.reachable = true ↔ ∃ trace, f.Walk b trace)
  covers : ∃ entries : BlockId → TempId → Prop, ∀ b, (∃ trace, f.Walk b trace) →
    (∀ v, (f.terminatorAt b).bind (·.input) = some v →
      BitSet.contains (terminatorLive analysis b) v.temp = true) ∧
    (∀ c, f.Edge b c → ∀ t, t < f.temps.length → entries c t →
      BitSet.contains (terminatorLive analysis b) t = true) ∧
    ∀ t, t < f.temps.length →
      liveIn (instructionsAt f b) (fun t => BitSet.contains (terminatorLive analysis b) t = true) t →
      entries b t

/-- What the analysis records: equations over the debug points of each block, solved from nothing
live anywhere. -/
structure Solved (initialized : Initialization w) (blocks : FunctionAnalysis w)
    (entries : BlockId → BitVec w) (analysis : FunctionAnalysis w) : Prop where
  records : BlockRecords initialized f.blocks 0 blocks
  turns : Iterated f blocks entries
  equation : ∀ b, initialized.reachable b = true →
    entries b = blockState f b (pointsAt blocks b) entries
  recorded : ∀ b, analysis[b]? = blocks[b]?.map (recordedBlock f b entries)

theorem buildAnalysis_spec (hrng : f.InRange) (initialized : Initialization w)
    (hr : Reachable f initialized.reachable initialized.predecessors) :
    Ensures (buildAnalysis f context initialized)
      (fun analysis => ∃ blocks entries, Solved f initialized blocks entries analysis) := by
  refine .bind (debugPoints_spec f context initialized f.blocks 0) (fun blocks hdbg => ?_)
  refine .bind (numberBlocks_spec context _ _ _ hdbg) (fun blocks hrecs => ?_)
  have hst : LiveSolving f initialized.reachable blocks
      ((List.range blocks.length).filter initialized.reachable) initialized.reachable
      (fun _ => (0 : BitVec w)) := by
    have hmem : ∀ b, initialized.reachable b = true →
        b ∈ (List.range blocks.length).filter initialized.reachable := by
      intro b hb
      obtain ⟨trace, hwalk⟩ := (hr.iff b).mp hb
      rw [mem_filter, mem_range, hrecs.1]
      exact ⟨hrng.walk hwalk, hb⟩
    exact ⟨hmem, fun b hb => .inl (hmem b hb)⟩
  refine .bind (liveLoop_spec f context initialized hr _ _ _ _ hst .start) ?_
  rintro entries ⟨hturns, heqn⟩
  refine (recordLiveness_spec f context entries blocks 0).mono (fun analysis hrecd => ?_)
  refine ⟨blocks, entries, hrecs, hturns, heqn, fun b => ?_⟩
  have h := hrecd b
  rwa [Nat.zero_add] at h

section Solved

variable {f} {initialized : Initialization w} {blocks : FunctionAnalysis w}
  {entries : BlockId → BitVec w} {analysis : FunctionAnalysis w}

/-- The record of a block has a point for each row and one for the terminator. -/
theorem Solved.record (h : Solved f initialized blocks entries analysis)
    (hblks : ∀ block ∈ f.blocks, block.debugValid f.debug.lexicalScopes.length = true)
    (hb : b < f.blocks.length) :
    ∃ record, blocks[b]? = some record ∧ record.reachable = initialized.reachable b ∧
      record.points.length = (instructionsAt f b).length + 1 := by
  have hget := getElem?_eq_getElem hb
  obtain ⟨record, hrec, hreach, hlen, -⟩ := h.records.2 b _ hget
  rw [Nat.zero_add] at hreach
  refine ⟨record, hrec, hreach, ?_⟩
  have hdbg := hblks _ (mem_of_getElem? hget)
  unfold BasicBlock.debugValid at hdbg
  simp only [Bool.and_eq_true, beq_iff_eq] at hdbg
  obtain ⟨scope, hscp⟩ := isSome_iff_exists.mp hdbg.1.2
  unfold instructionsAt
  rw [hlen, length_append, hscp, hget, elim_some, hdbg.1.1.2]
  rfl

/-- Every recorded point has the state that the equations give it. -/
theorem Solved.point (h : Solved f initialized blocks entries analysis)
    (hblks : ∀ block ∈ f.blocks, block.debugValid f.debug.lexicalScopes.length = true)
    (hb : b < f.blocks.length) (hrch : initialized.reachable b = true) (k : Nat) :
    (pointsAt analysis b)[k]? =
      (pointsAt blocks b)[k]?.map (save f (pointState f b (pointsAt blocks b) entries k)) := by
  obtain ⟨record, hrec, hreach, hlen⟩ := h.record hblks hb
  have hpts : pointsAt blocks b = record.points := by
    unfold pointsAt
    rw [hrec]
    rfl
  rw [hpts, ← recordedBlock_get f (hreach.trans hrch) hlen k]
  unfold pointsAt
  rw [h.recorded b, hrec]
  rfl

/-- Nothing is recorded in a block that is not reachable. -/
theorem Solved.unreached (h : Solved f initialized blocks entries analysis)
    (hrch : ¬initialized.reachable b = true) :
    ∀ point ∈ pointsAt analysis b, point.live = 0 ∧ point.roots = 0 ∧ point.debugAvailable = 0 := by
  unfold pointsAt
  rw [h.recorded b]
  cases hrec : blocks[b]? with
  | none => exact nofun
  | some record =>
    obtain ⟨hreach, hinit⟩ := h.records.get hrec
    rw [Nat.zero_add] at hreach
    rw [map_some, recordedBlock, hreach, if_neg hrch]
    intro point hpt
    obtain ⟨hlive, hrts, hdbg⟩ := hinit point hpt
    exact ⟨hlive, hrts, hdbg (hreach.trans (Bool.eq_false_iff.mpr hrch))⟩

/-- The recorded live sets are sound for the temporaries. -/
theorem Solved.liveSound (h : Solved f initialized blocks entries analysis)
    (hw : f.temps.length ≤ w) (hrng : f.InRange)
    (hblks : ∀ block ∈ f.blocks, block.debugValid f.debug.lexicalScopes.length = true)
    (hrd : ∀ b v, (f.terminatorAt b).bind (·.input) = some v → v.temp < f.temps.length)
    (hr : Reachable f initialized.reachable initialized.predecessors) : LiveSound f analysis := by
  constructor
  · intro b hb
    obtain ⟨record, hrec, hreach, -⟩ := h.record hblks hb
    refine ⟨recordedBlock f b entries record, ?_, ?_⟩
    · rw [h.recorded b, hrec]
      rfl
    · have hsame : (recordedBlock f b entries record).reachable = record.reachable := by
        unfold recordedBlock
        split
        · rfl
        · rfl
      rw [hsame, hreach]
      exact hr.iff b
  · refine ⟨fun b t => BitSet.contains (entries b) t = true, fun b hb => ?_⟩
    obtain ⟨trace, hwalk⟩ := hb
    have hrch := (hr.iff b).mpr ⟨trace, hwalk⟩
    have hlt := hrng.walk hwalk
    obtain ⟨record, hrec, hreach, hlen⟩ := h.record hblks hlt
    have hpts : pointsAt blocks b = record.points := by
      unfold pointsAt
      rw [hrec]
      rfl
    have hterm : terminatorLive analysis b =
        terminatorState f b (pointsAt blocks b) entries := by
      have hana : terminatorLive analysis b =
          ((pointsAt analysis b).getLast?).elim 0 (·.live) := by
        unfold terminatorLive pointsAt
        cases analysis[b]? with
        | none => rfl
        | some record => rfl
      have hsame : (pointsAt analysis b).length = record.points.length := by
        refine le_antisymm ?_ ?_
        · rw [← getElem?_eq_none_iff, h.point hblks hlt hrch, hpts]
          simp
        · by_contra hshort
          have hnone : (pointsAt analysis b)[record.points.length - 1]? = none :=
            getElem?_eq_none (by omega)
          rw [h.point hblks hlt hrch, hpts, map_eq_none_iff,
            getElem?_eq_none_iff] at hnone
          omega
      rw [hana, getLast?_eq_getElem?, hsame, h.point hblks hlt hrch, hpts, hlen,
        Nat.add_sub_cancel, getElem?_eq_getElem (by omega), pointState_end (Nat.le_refl _)]
      rfl
    rw [hterm]
    refine ⟨fun v hv => ?_, fun c hedge t ht hent => ?_, fun t ht hlive => ?_⟩
    · rw [contains_terminatorState]
      exact .inl ⟨v, hv, rfl, lt_of_lt_of_le (hrd b v hv) hw⟩
    · rw [contains_terminatorState]
      exact .inr (.inl ⟨c, hedge, hent⟩)
    · show BitSet.contains (entries b) t = true
      rw [h.equation b hrch, ← pointState_zero]
      refine contains_foldr_liveBefore f hw _ _ ?_ t ht hlive
      rw [hpts]
      omega

end Solved

theorem verifyFlow_reachable :
    Ensures (verifyFlow f context) (fun out => Reachable f out.reachable out.predecessors) := by
  refine .bind (reachLoop_spec f context _ _ _ _ (searching_start f)) ?_
  rintro ⟨reachable, predecessors⟩ hr
  refine .bind Ensures.any (fun outputs _ => ?_)
  exact .bind Ensures.any (fun entries _ => .pure hr)

/-- What the verifier returns comes from the equations of a well-formed function. -/
theorem verifyFunction_solved (checks : Checks P) :
    Ensures (verifyFunction checks f context) (fun analysis => WellFormed checks f context ∧
      ∃ initialized blocks entries,
        Reachable f initialized.reachable initialized.predecessors ∧
        Solved f initialized blocks entries analysis) := by
  refine .and (verifyFunction_spec checks f context) ?_
  refine .seq (.seq ?_)
  refine .bind Ensures.lift (fun _ hent => ?_)
  refine .seq (.seq (.seq ?_))
  refine .bind (verifyBlocks_spec checks f context _ _ _ _) ?_
  rintro effects ⟨-, hblks⟩
  refine .seq (.seq (.seq ?_))
  refine .bind (verifyFlow_reachable f context) (fun initialized hr => ?_)
  have hrng := inRange_of_blockOk (checkEntry_ok hent) hblks
  refine .bind (buildAnalysis_spec f context hrng initialized hr) ?_
  rintro analysis ⟨blocks, entries, hsol⟩
  exact .seq (.pure ⟨initialized, blocks, entries, hr, hsol⟩)

variable {f context} in
/-- A terminator of a well-formed function reads one of its temporaries. -/
theorem WellFormed.terminator_lt {checks : Checks P} (h : WellFormed checks f context)
    {v : MirValue} (hv : (f.terminatorAt b).bind (·.input) = some v) : v.temp < f.temps.length := by
  obtain ⟨t, ht, hinp⟩ := bind_eq_some_iff.mp hv
  obtain ⟨block, hblk, ht⟩ := bind_eq_some_iff.mp ht
  refine (readsInRange_of_blockOk h.blocks).terminator block (mem_of_getElem? hblk) v ?_
  rw [ht]
  exact hinp

/-- What the verifier returns covers what is read later. -/
theorem verifyFunction_live (checks : Checks P) :
    Ensures (verifyFunction checks f context) (LiveSound f) := by
  refine (verifyFunction_solved f context checks).mono ?_
  rintro analysis ⟨hwell, initialized, blocks, entries, hr, hsol⟩
  have hw : f.temps.length ≤ f.width := le_trans (Nat.le_add_right _ _) (slots_le_width f)
  exact hsol.liveSound hw (inRange_of_blockOk hwell.entry hwell.blocks)
    (fun block hblk => (hwell.blocks block hblk).debug) (fun b v hv => hwell.terminator_lt hv) hr

end Liveness

end Kagari.Mir
