import Kagari.Lib.Liveness
import Kagari.Mir.Verify.Initialized
import Kagari.Mir.Verify.Liveness

/-!
# Liveness at every point

The live set recorded for a point (a row of a block, or its terminator) against the paths from the
point: `verifyFunction_exact`. A slot is read by an instruction, by a terminator or by a debugger
where the point has it available. Blocks that no path reaches are left out of the analysis:
nothing is recorded there, whatever they read (`deadRead_not_recorded`).
-/

namespace Kagari.Mir

open Lib List

variable {b : BlockId} {k s : Nat}

section Points

variable {P : Type} (f : MirFunction P) {w : Nat}

/-- Control goes from one point to the next: down the rows, then along a jump. -/
def MirFunction.Next (p q : Point) : Prop :=
  (p.2 < (instructionsAt f p.1).length ∧ q = (p.1, p.2 + 1)) ∨
  (p.2 = (instructionsAt f p.1).length ∧ f.Edge p.1 q.1 ∧ q.2 = 0)

/-- The slots read at a point. -/
def slotsRead (analysis : FunctionAnalysis w) (p : Point) : Set Nat :=
  {s | (∃ i, (instructionsAt f p.1)[p.2]? = some i ∧ s ∈ readSlots f i) ∨
    (p.2 = (instructionsAt f p.1).length ∧
      ∃ v, (f.terminatorAt p.1).bind (·.input) = some v ∧ v.temp = s) ∨
    ∃ point, (pointsAt analysis p.1)[p.2]? = some point ∧
      BitSet.contains point.debugAvailable s = true}

/-- The slots written at a point. -/
def slotsWritten (p : Point) : Set Nat :=
  {s | ∃ i, (instructionsAt f p.1)[p.2]? = some i ∧ s ∈ definedSlots f i}

/-- Some path from the point reads the slot before it writes it. -/
abbrev LiveAt (analysis : FunctionAnalysis w) : Point → Nat → Prop :=
  Live (slotsRead f analysis) (slotsWritten f) f.Next

/-- The physical type of a slot: the temporaries first, then the locals. -/
def slotType (s : Nat) : Option ValueType := (f.temps.map (·.ty) ++ f.locals.map (·.ty))[s]?

theorem contains_heapSlots : BitSet.contains (heapSlots f w) s = true ↔
    slotType f s = some .heapObject ∧ s < w := by
  unfold heapSlots slotType
  have hzero : ¬ BitSet.contains (0 : BitVec w) s = true := by
    rw [BitVec.ofNat_eq_ofNat, BitSet.contains_zero]
    exact Bool.false_ne_true
  rw [BitSet.contains_foldl_insert, or_iff_right hzero]
  simp only [mem_map, mem_filter, beq_iff_eq, Prod.exists, exists_eq_right]
  exact and_congr_left (fun _ => mem_zipIdx_iff_getElem?)

variable {f}

/-- Where a row is, the next point is the next row. -/
theorem next_row (hk : k < (instructionsAt f b).length) (q : Point) :
    f.Next (b, k) q ↔ q = (b, k + 1) := by
  unfold MirFunction.Next
  constructor
  · rintro (⟨-, rfl⟩ | ⟨heq, -⟩)
    · rfl
    · exact absurd heq (Nat.ne_of_lt hk)
  · exact fun h => .inl ⟨hk, h⟩

theorem next_end (hk : k = (instructionsAt f b).length) (q : Point) :
    f.Next (b, k) q ↔ ∃ c, f.Edge b c ∧ q = (c, 0) := by
  unfold MirFunction.Next
  constructor
  · rintro (⟨hlt, -⟩ | ⟨-, hedge, hzero⟩)
    · exact absurd hk (Nat.ne_of_lt hlt)
    · exact ⟨q.1, hedge, Prod.ext rfl hzero⟩
  · rintro ⟨c, hedge, rfl⟩
    exact .inr ⟨hk, hedge, rfl⟩

variable {i : Instruction P} {point : PointAnalysis w}

section Equations

variable {blocks : FunctionAnalysis w} {b : BlockId} {s : Nat}

/-- The equation of a row. -/
theorem liveAt_row
    (hi : (instructionsAt f b)[k]? = some i) (hpt : (pointsAt blocks b)[k]? = some point) :
    LiveAt f blocks (b, k) s ↔ s ∈ readSlots f i ∨
      (LiveAt f blocks (b, k + 1) s ∧ s ∉ definedSlots f i) ∨
      BitSet.contains point.debugAvailable s = true := by
  have hk := (List.getElem?_eq_some_iff.mp hi).1
  rw [LiveAt, Live.iff_of_single (next_row hk)]
  have hrd : s ∈ slotsRead f blocks (b, k) ↔
      s ∈ readSlots f i ∨ BitSet.contains point.debugAvailable s = true := by
    unfold slotsRead
    simp [hi, hpt, Nat.ne_of_lt hk]
  have hwrs : s ∈ slotsWritten f (b, k) ↔ s ∈ definedSlots f i := by
    unfold slotsWritten
    simp [hi]
  rw [hrd, hwrs]
  tauto

/-- The equation of a terminator. -/
theorem liveAt_end (hk : k = (instructionsAt f b).length)
    (hpt : (pointsAt blocks b)[k]? = some point) :
    LiveAt f blocks (b, k) s ↔
      (∃ v, (f.terminatorAt b).bind (·.input) = some v ∧ v.temp = s) ∨
      (∃ c, f.Edge b c ∧ LiveAt f blocks (c, 0) s) ∨
      BitSet.contains point.debugAvailable s = true := by
  have hnone : (instructionsAt f b)[k]? = none := getElem?_eq_none (Nat.le_of_eq hk.symm)
  have hrd : s ∈ slotsRead f blocks (b, k) ↔
      (∃ v, (f.terminatorAt b).bind (·.input) = some v ∧ v.temp = s) ∨
        BitSet.contains point.debugAvailable s = true := by
    unfold slotsRead
    rw [Set.mem_ofPred_eq, hpt]
    simp [← hk]
  have hwrs : s ∉ slotsWritten f (b, k) := by
    unfold slotsWritten
    simp [hnone]
  rw [LiveAt, Live.iff, hrd]
  simp only [hwrs, not_false_eq_true, true_and, next_end hk]
  constructor
  · rintro ((hv | hdbg) | ⟨q, ⟨c, hedge, rfl⟩, hlive⟩)
    · exact .inl hv
    · exact .inr (.inr hdbg)
    · exact .inr (.inl ⟨c, hedge, hlive⟩)
  · rintro (hv | ⟨c, hedge, hlive⟩ | hdbg)
    · exact .inl (.inl hv)
    · exact .inr ⟨(c, 0), ⟨c, hedge, rfl⟩, hlive⟩
    · exact .inl (.inr hdbg)

end Equations

/-! ## A solution is exact -/

section Exact

variable {blocks : FunctionAnalysis w} {entries : BlockId → BitVec w}

/-- A point for each row of the block, and one for its terminator. -/
def HasPoints (f : MirFunction P) (blocks : FunctionAnalysis w) (b : BlockId) : Prop :=
  (pointsAt blocks b).length = (instructionsAt f b).length + 1

theorem HasPoints.last (h : HasPoints f blocks b) :
    (pointsAt blocks b).getLast? = (pointsAt blocks b)[(instructionsAt f b).length]? := by
  unfold HasPoints at h
  rw [getLast?_eq_getElem?, h, Nat.add_sub_cancel]

theorem HasPoints.get {b : BlockId} (h : HasPoints f blocks b) {k : Nat}
    (hk : k ≤ (instructionsAt f b).length) : ∃ point, (pointsAt blocks b)[k]? = some point := by
  unfold HasPoints at h
  exact ⟨_, getElem?_eq_getElem (by omega)⟩

/-- What a state has is live, when what the successors' entries have is. -/
theorem liveAt_of_pointState (hpts : HasPoints f blocks b)
    (hents : ∀ c, f.Edge b c → BitSet.contains (entries c) s = true → LiveAt f blocks (c, 0) s)
    (d : Nat) : ∀ k, k + d = (instructionsAt f b).length →
      BitSet.contains (pointState f b (pointsAt blocks b) entries k) s = true →
        LiveAt f blocks (b, k) s := by
  -- downwards from the terminator
  induction d with
  | zero =>
    intro k hk h
    rw [Nat.add_zero] at hk
    obtain ⟨point, hpt⟩ := hpts.get (Nat.le_of_eq hk)
    rw [liveAt_end hk hpt]
    rw [pointState_end (Nat.le_of_eq hk.symm), contains_terminatorState, hpts.last, ← hk, hpt,
      Option.elim_some] at h
    rcases h with ⟨v, hv, hs, -⟩ | ⟨c, hedge, hent⟩ | hdbg
    · exact .inl ⟨v, hv, hs⟩
    · exact .inr (.inl ⟨c, hedge, hents c hedge hent⟩)
    · exact .inr (.inr hdbg)
  | succ d ih =>
    intro k hk h
    obtain ⟨i, hi⟩ : ∃ i, (instructionsAt f b)[k]? = some i :=
      ⟨_, getElem?_eq_getElem (by omega)⟩
    obtain ⟨point, hpt⟩ := hpts.get (k := k) (by omega)
    rw [liveAt_row hi hpt]
    rw [pointState_row hi hpt, contains_liveBefore] at h
    rcases h with ⟨hread, -⟩ | ⟨haft, hkept⟩ | hdbg
    · exact .inl hread
    · exact .inr (.inl ⟨ih (k + 1) (by omega) haft, hkept⟩)
    · exact .inr (.inr hdbg)

/-- Where there is no block there is nothing live. -/
theorem blockState_outside (hlen : blocks.length = f.blocks.length)
    (hb : f.blocks.length ≤ b) : blockState f b (pointsAt blocks b) entries = 0 := by
  have hblk : f.blocks[b]? = none := getElem?_eq_none hb
  have hpts : blocks[b]? = none := getElem?_eq_none (by omega)
  unfold blockState reversedPoints terminatorState MirFunction.successorsAt MirFunction.terminatorAt
    pointsAt instructionsAt
  rw [hblk, hpts]
  rfl

/-- Every turn over the equations keeps to the live slots. -/
theorem Iterated.liveAt (h : Iterated f blocks entries) (hlen : blocks.length = f.blocks.length)
    (hpts : ∀ b, b < f.blocks.length → HasPoints f blocks b) :
    ∀ b s, BitSet.contains (entries b) s = true → LiveAt f blocks (b, 0) s := by
  induction h with
  | start =>
    intro b s h
    rw [BitVec.ofNat_eq_ofNat, BitSet.contains_zero] at h
    cases h
  | @turn entries index _ ih =>
    intro b s h
    by_cases hb : b = index
    · subst hb
      rw [Function.update_self] at h
      by_cases hlt : b < f.blocks.length
      · rw [← pointState_zero] at h
        exact liveAt_of_pointState (hpts b hlt) (fun c _ => ih c s) _ 0 (Nat.zero_add _) h
      · rw [blockState_outside hlen (Nat.le_of_not_lt hlt), BitVec.ofNat_eq_ofNat,
          BitSet.contains_zero] at h
        cases h
    · rw [Function.update_of_ne hb] at h
      exact ih b s h

/-- The points of the reachable blocks. -/
def reachedPoints (f : MirFunction P) (reachable : BlockId → Bool) : Set Point :=
  {p | reachable p.1 = true ∧ p.2 ≤ (instructionsAt f p.1).length}

/-- The slots that the entries make live at a point. -/
def statesAt (f : MirFunction P) (blocks : FunctionAnalysis w) (entries : BlockId → BitVec w)
    (p : Point) : Set Nat :=
  {s | BitSet.contains (pointState f p.1 (pointsAt blocks p.1) entries p.2) s = true}

theorem mem_statesAt {k s : Nat} : s ∈ statesAt f blocks entries (b, k) ↔
    BitSet.contains (pointState f b (pointsAt blocks b) entries k) s = true := Iff.rfl

/-- A solution of the equations has every live slot. -/
theorem pointState_of_liveAt {reachable : BlockId → Bool}
    (heqn : ∀ b, reachable b = true → entries b = blockState f b (pointsAt blocks b) entries)
    (hclos : ∀ b c, reachable b = true → f.Edge b c → reachable c = true)
    (hpts : ∀ b, reachable b = true → HasPoints f blocks b)
    (hrows : ∀ b i, i ∈ instructionsAt f b → ∀ s ∈ readSlots f i, s < w)
    (hends : ∀ b v, (f.terminatorAt b).bind (·.input) = some v → v.temp < w)
    {p : Point} (hp : p ∈ reachedPoints f reachable) (h : LiveAt f blocks p s) :
    s ∈ statesAt f blocks entries p := by
  refine Live.mem_of_equations (X := statesAt f blocks entries) ?_ ?_ ?_ h hp
  · rintro ⟨b, k⟩ ⟨hb, hk⟩ q (⟨hlt, rfl⟩ | ⟨-, hedge, hq⟩)
    · exact ⟨hb, hlt⟩
    · exact ⟨hclos b _ hb hedge, hq ▸ Nat.zero_le _⟩
  · rintro ⟨b, k⟩ ⟨hb, hk⟩ s hs
    obtain ⟨point, hpt⟩ := (hpts b hb).get hk
    show BitSet.contains _ s = true
    rcases hs with ⟨i, hi, hread⟩ | ⟨hend, v, hv, rfl⟩ | ⟨point', hpt', hdbg⟩
    · rw [pointState_row hi hpt, contains_liveBefore]
      exact .inl ⟨hread, hrows b i (mem_of_getElem? hi) s hread⟩
    · rw [pointState_end (Nat.le_of_eq hend.symm), contains_terminatorState]
      exact .inl ⟨v, hv, rfl, hends b v hv⟩
    · cases hpt.symm.trans hpt'
      by_cases hlt : k < (instructionsAt f b).length
      · rw [pointState_row (getElem?_eq_getElem hlt) hpt, contains_liveBefore]
        exact .inr (.inr hdbg)
      · obtain rfl : k = (instructionsAt f b).length := le_antisymm hk (Nat.le_of_not_lt hlt)
        rw [pointState_end (Nat.le_refl _), contains_terminatorState, (hpts b hb).last, hpt]
        exact .inr (.inr hdbg)
  · rintro ⟨b, k⟩ ⟨hb, hk⟩ q hnext s hs hkept
    obtain ⟨point, hpt⟩ := (hpts b hb).get hk
    show BitSet.contains _ s = true
    rcases hnext with ⟨hlt, rfl⟩ | ⟨hend, hedge, hq⟩
    · rw [pointState_row (getElem?_eq_getElem hlt) hpt, contains_liveBefore]
      refine .inr (.inl ⟨hs, fun hwrtn => hkept ⟨_, getElem?_eq_getElem hlt, hwrtn⟩⟩)
    · rw [pointState_end (Nat.le_of_eq hend.symm), contains_terminatorState]
      refine .inr (.inl ⟨q.1, hedge, ?_⟩)
      have hstate : BitSet.contains (pointState f q.1 (pointsAt blocks q.1) entries q.2) s = true := hs
      rw [hq, pointState_zero, ← heqn q.1 (hclos b _ hb hedge)] at hstate
      exact hstate

end Exact

/-! ## The verifier's records -/

section Verified

variable {initialized : Initialization w} {blocks analysis : FunctionAnalysis w}
  {entries : BlockId → BitVec w}

/-- Recording the live sets leaves the debug points alone. -/
theorem Solved.slotsRead_eq (h : Solved f initialized blocks entries analysis)
    (hblks : ∀ block ∈ f.blocks, block.debugValid f.debug.lexicalScopes.length = true) :
    slotsRead f analysis = slotsRead f blocks := by
  have hdbg : ∀ b k : Nat, (pointsAt analysis b)[k]?.map PointAnalysis.debugAvailable =
      (pointsAt blocks b)[k]?.map PointAnalysis.debugAvailable := by
    intro b k
    by_cases hb : b < f.blocks.length
    · obtain ⟨record, hrec, hreach, -⟩ := h.record hblks hb
      by_cases hrch : initialized.reachable b = true
      · rw [h.point hblks hb hrch, Option.map_map]
        rfl
      · have hsame : pointsAt analysis b = pointsAt blocks b := by
          unfold pointsAt
          rw [h.recorded b, hrec, Option.map_some, recordedBlock, hreach, if_neg hrch]
        rw [hsame]
    · have hnone : blocks[b]? = none := getElem?_eq_none (by rw [h.records.1]; omega)
      unfold pointsAt
      rw [h.recorded b, hnone]
      rfl
  funext p
  ext s
  have hpt : (∃ point, (pointsAt analysis p.1)[p.2]? = some point ∧
      BitSet.contains point.debugAvailable s = true) ↔
      ∃ point, (pointsAt blocks p.1)[p.2]? = some point ∧
        BitSet.contains point.debugAvailable s = true := by
    have heq := hdbg p.1 p.2
    cases hleft : (pointsAt analysis p.1)[p.2]? with
    | none =>
      rw [hleft, Option.map_none, eq_comm, Option.map_eq_none_iff] at heq
      simp [heq]
    | some point =>
      rw [hleft, Option.map_some, eq_comm, Option.map_eq_some_iff] at heq
      obtain ⟨point', hrt, hsame⟩ := heq
      simp [hrt, hsame]
  exact or_congr_right (or_congr_right hpt)

end Verified

/-- The slots that a well-formed function reads are slots of it. -/
theorem WellFormed.readSlots_lt {checks : Checks P} {context : Context}
    (h : WellFormed checks f context)
    (hi : i ∈ instructionsAt f b) (hs : s ∈ readSlots f i) :
    s < f.temps.length + f.locals.length := by
  have hrd := readsInRange_of_blockOk h.blocks
  obtain ⟨block, hblk, hi⟩ : ∃ block ∈ f.blocks, i ∈ block.instructions := by
    unfold instructionsAt at hi
    cases hb : f.blocks[b]? with
    | none => simp [hb] at hi
    | some block =>
      rw [hb] at hi
      exact ⟨block, mem_of_getElem? hb, hi⟩
  rcases mem_append.mp hs with hs | hs
  · obtain ⟨v, hv, rfl⟩ := mem_map.mp hs
    exact Nat.lt_add_right _ (hrd.temps block hblk i hi v hv)
  · split at hs
    · rw [mem_singleton.mp hs]
      exact Nat.add_lt_add_left (hrd.locals block hblk _ hi _ _ rfl) _
    · cases hs

/-- At every point that some path reaches, the recorded live set has exactly the slots that some path
from there reads before it writes them, and the recorded roots are the live heap objects. In a block that
no path reaches nothing is recorded. -/
theorem verifyFunction_exact (checks : Checks P) (f : MirFunction P) (context : Context) :
    Ensures (verifyFunction checks f context) (fun analysis =>
      (∀ b k, Reached f b k → ∃ point, (pointsAt analysis b)[k]? = some point ∧
        (∀ s, BitSet.contains point.live s = true ↔ LiveAt f analysis (b, k) s) ∧
        (∀ s, BitSet.contains point.roots s = true ↔
          BitSet.contains point.live s = true ∧ slotType f s = some .heapObject)) ∧
      ∀ b, (∀ k, ¬Reached f b k) → ∀ point ∈ pointsAt analysis b,
        point.live = 0 ∧ point.roots = 0 ∧ point.debugAvailable = 0) := by
  refine (verifyFunction_solved f context checks).mono ?_
  rintro analysis ⟨hwell, initialized, blocks, entries, hr, hsol⟩
  refine ⟨?_, fun b hunr => hsol.unreached fun hrch => ?_⟩
  swap
  · obtain ⟨walk, hwalk⟩ := (hr.iff b).mp hrch
    exact hunr 0 ⟨_, (path_iff f).mpr ⟨walk, hwalk, Nat.zero_le _, rfl⟩⟩
  rintro b k ⟨trace, hpath⟩
  obtain ⟨walk, hwalk, hk, -⟩ := (path_iff f).mp hpath
  have halgn := aligned_of_blockOk hwell.blocks
  have hrng := inRange_of_blockOk hwell.entry hwell.blocks
  have hdbg : ∀ block ∈ f.blocks, block.debugValid f.debug.lexicalScopes.length = true :=
    fun block hblk => (hwell.blocks block hblk).debug
  have hin : ∀ {c}, initialized.reachable c = true → c < f.blocks.length := by
    intro c hc
    obtain ⟨trace, hwalk⟩ := (hr.iff c).mp hc
    exact hrng.walk hwalk
  have hpts : ∀ c, c < f.blocks.length → HasPoints f blocks c := by
    intro c hc
    obtain ⟨record, hrec, -, hlen⟩ := hsol.record hdbg hc
    unfold HasPoints pointsAt
    rw [hrec]
    exact hlen
  have hrch := (hr.iff b).mpr ⟨walk, hwalk⟩
  rw [← List.length_map (·.instruction), ← instructionsAt_eq halgn] at hk
  obtain ⟨point, hpt⟩ := (hpts b (hin hrch)).get hk
  have hrecd := hsol.point hdbg (hin hrch) hrch k
  rw [hpt] at hrecd
  refine ⟨_, hrecd, fun s => ?_, fun s => ?_⟩
  · rw [LiveAt, hsol.slotsRead_eq hdbg]
    dsimp only [save]
    constructor
    · have hents := hsol.turns.liveAt hsol.records.1 hpts
      exact liveAt_of_pointState (hpts b (hin hrch)) (fun c _ => hents c s)
        ((instructionsAt f b).length - k) k (by omega)
    · intro hlive
      have hw := slots_le_width f
      rw [← mem_statesAt]
      refine pointState_of_liveAt hsol.equation ?_ (fun c hc => hpts c (hin hc)) ?_ ?_
        ⟨hrch, hk⟩ hlive
      · intro c d hc hedge
        obtain ⟨trace, hwalk⟩ := (hr.iff c).mp hc
        exact (hr.iff d).mpr ⟨_, hwalk.step hedge⟩
      · exact fun c i hi s hs => lt_of_lt_of_le (hwell.readSlots_lt hi hs) hw
      · exact fun c v hv => lt_of_lt_of_le (hwell.terminator_lt hv) (le_trans (Nat.le_add_right _ _) hw)
  · dsimp only [save]
    rw [BitSet.contains_and, contains_heapSlots]
    refine and_congr_right (fun hlive => ?_)
    exact and_iff_left (BitVec.lt_of_getLsbD hlive)

end Points

/-- The block that nothing jumps to returns a temporary, which is not recorded as live there. -/
theorem deadRead_not_recorded :
    ∃ analysis budget, (verifyFunction openChecks deadRead ⟨false, none, none, none⟩).run ⟨0, 0⟩ =
      .ok (analysis, budget) ∧
      ∃ point, (pointsAt analysis 3)[0]? = some point ∧
        BitSet.contains point.live 2 = false ∧ LiveAt deadRead analysis (3, 0) 2 := by
  have hpt : (((verifyFunction openChecks deadRead ⟨false, none, none, none⟩).run
      ⟨0, 0⟩).toOption.bind fun out => (pointsAt out.1 3)[0]?.map fun point =>
        BitSet.contains point.live 2) = some false := by
    decide +kernel
  obtain ⟨⟨analysis, budget⟩, hrun, hpt⟩ := Option.bind_eq_some_iff.mp hpt
  obtain ⟨point, hpt, hlive⟩ := Option.map_eq_some_iff.mp hpt
  refine ⟨analysis, budget, ok_of_toOption hrun, point, hpt, hlive, .here ?_⟩
  exact .inr (.inl ⟨rfl, ⟨2, .bool⟩, rfl, rfl⟩)

end Kagari.Mir
