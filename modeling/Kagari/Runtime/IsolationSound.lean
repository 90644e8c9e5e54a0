import Kagari.Runtime.Isolation

/-!
# Execution windows are isolated

Over any run: the windows tile the banks in the order of their allocation, a window holds what was
last written through its own identity, and an identity that was released never works again.
-/

namespace Kagari.Runtime

open Lib Live ExecutionValues Function List Option

variable {H : Type}

/-! ## Tiles -/

/-- Ranges one after another, from `start` to `stop`. -/
def Consecutive : Nat → Nat → List Extent → Prop
  | start, stop, [] => start = stop
  | start, stop, extent :: rest =>
    extent.start = start ∧ start ≤ extent.stop ∧ Consecutive extent.stop stop rest

variable {extents : List Extent} (lives : List (Live H)) {location : Location} {slots : FrameSlots}

theorem Consecutive.le {start stop : Nat} (h : Consecutive start stop extents) :
    ∀ extent ∈ extents, start ≤ extent.start := by
  induction extents generalizing start with
  | nil => exact fun _ hmem => nomatch hmem
  | cons extent rest ih =>
    intro other hmem
    rcases mem_cons.mp hmem with rfl | hmem
    · exact Nat.le_of_eq h.1.symm
    · exact Nat.le_trans h.2.1 (ih h.2.2 other hmem)

/-- They are disjoint, each before the next. -/
theorem Consecutive.disjoint {start stop : Nat}
    (h : Consecutive start stop extents) :
    extents.Pairwise fun extent other => extent.stop ≤ other.start := by
  induction extents generalizing start with
  | nil => exact List.Pairwise.nil
  | cons extent rest ih => exact pairwise_cons.mpr ⟨h.2.2.le, ih h.2.2⟩

/-- The windows in the table, in the order of their allocation, tile both banks. -/
structure Tiled (state : ExecutionValues H) (live : List (Nat × Window)) : Prop where
  order : state.allocationOrder = live.map Prod.fst
  nodup : (live.map Prod.fst).Nodup
  all : ∀ i window, state.windows.get i = some window ↔ (i, window) ∈ live
  allocated : (live.map fun entry => entry.2.generation).Pairwise (· < ·)
  managed : Consecutive 0 state.values.length (live.map fun entry => entry.2.ranges.managed)
  scalars : Consecutive 0 state.payloads.length (live.map fun entry => entry.2.ranges.scalars)
  marks : state.initialized.length = state.payloads.length

/-- The windows of a list that begins at the given places. -/
def entriesAt : Nat → Nat → List (Live H) → List (Nat × Window)
  | _, _, [] => []
  | managed, scalars, live :: rest =>
    (live.index, live.windowAt managed scalars) ::
      entriesAt (managed + live.operands.managed.length) (scalars + live.operands.payloads.length) rest

theorem entriesAt_index (managed scalars : Nat) :
    (entriesAt managed scalars lives).map Prod.fst = lives.map Live.index := by
  induction lives generalizing managed scalars with
  | nil => rfl
  | cons live rest ih => exact congrArg (live.index :: ·) (ih _ _)

theorem entriesAt_generation (managed scalars : Nat) :
    ((entriesAt managed scalars lives).map fun entry => entry.2.generation) =
      lives.map Live.generation := by
  induction lives generalizing managed scalars with
  | nil => rfl
  | cons live rest ih => exact congrArg (live.generation :: ·) (ih _ _)

theorem entriesAt_managed (managed scalars : Nat) :
    Consecutive managed (managed + (managedOf lives).length)
      ((entriesAt managed scalars lives).map fun entry => entry.2.ranges.managed) := by
  induction lives generalizing managed scalars with
  | nil => exact (Nat.add_zero _).symm
  | cons live rest ih =>
    refine ⟨rfl, Nat.le_add_right _ _, ?_⟩
    have hrest := ih (managed + live.operands.managed.length) (scalars + live.operands.payloads.length)
    have hlen : (managedOf (live :: rest)).length =
        live.operands.managed.length + (managedOf rest).length := length_append
    rwa [Nat.add_assoc, ← hlen] at hrest

theorem entriesAt_scalars (managed scalars : Nat) :
    Consecutive scalars (scalars + (payloadsOf lives).length)
      ((entriesAt managed scalars lives).map fun entry => entry.2.ranges.scalars) := by
  induction lives generalizing managed scalars with
  | nil => exact (Nat.add_zero _).symm
  | cons live rest ih =>
    refine ⟨rfl, Nat.le_add_right _ _, ?_⟩
    have hrest := ih (managed + live.operands.managed.length) (scalars + live.operands.payloads.length)
    have hlen : (payloadsOf (live :: rest)).length =
        live.operands.payloads.length + (payloadsOf rest).length := length_append
    rwa [Nat.add_assoc, ← hlen] at hrest

theorem Live.Placed.entries {windows : Windows Window} {lives : List (Live H)} {managed scalars : Nat}
    (h : Placed windows managed scalars lives) :
    ∀ entry ∈ entriesAt managed scalars lives, windows.get entry.1 = some entry.2 := by
  induction lives generalizing managed scalars with
  | nil => exact fun _ hmem => nomatch hmem
  | cons live rest ih =>
    intro entry hmem
    rcases mem_cons.mp hmem with rfl | hmem
    · exact h.1
    · exact ih h.2 entry hmem

namespace ExecutionValues

variable {state : ExecutionValues H} {lives : List (Live H)} {events : List (WindowEvent H)}

theorem Rep.tiled (h : Rep state lives) : Tiled state (entriesAt 0 0 lives) := by
  refine ⟨?_, ?_, fun i window => ⟨fun hget => ?_, h.placed.entries (i, window)⟩, ?_, ?_, ?_, ?_⟩
  · rw [entriesAt_index, h.order]
  · rw [entriesAt_index]
    exact h.nodup
  · have hmem := h.only i window hget
    rw [← entriesAt_index lives 0 0] at hmem
    obtain ⟨entry, hent, rfl⟩ := mem_map.mp hmem
    obtain rfl : window = entry.2 := by
      rw [h.placed.entries entry hent] at hget
      exact (some.inj hget).symm
    exact hent
  · rw [entriesAt_generation]
    exact h.sorted
  · have hman := entriesAt_managed lives 0 0
    rwa [Nat.zero_add, ← h.values] at hman
  · have hscals := entriesAt_scalars lives 0 0
    rwa [Nat.zero_add, ← h.payloads] at hscals
  · rw [h.initialized, h.payloads, h.even.length]

/-! ## Runs -/

/-- An identity through which nothing is read, written or released. -/
structure Dead (state : ExecutionValues H) (slots : FrameSlots) : Prop where
  readLocation : ∀ location, state.readLocation slots location = none
  readLogical : ∀ logical, state.readLogical slots logical = none
  scalarLocation : ∀ location, state.scalarLocation slots location = none
  setLocation : ∀ location value, state.setLocation slots location value = none
  set : ∀ logical value, state.set slots logical value = none
  setScalarLocation : ∀ location representation bits,
    state.setScalarLocation slots location representation bits = none
  retainManaged : ∀ retained, state.retainManaged slots retained = none
  release : state.release slots = some none
  sourceRanges : ∀ arguments : FrameArguments H, arguments.window = some slots →
    state.sourceRanges arguments = .error .invalidArgumentWindow

theorem dead_of_window (h : state.window slots = none) : Dead state slots := by
  have hrngs : state.ranges slots = none := by
    unfold ExecutionValues.ranges
    rw [h]
    rfl
  refine ⟨fun location => ?_, fun logical => ?_, fun location => ?_, fun location value => ?_,
    fun logical value => ?_, fun location representation bits => ?_, fun retained => ?_, ?_,
    fun arguments hargs => ?_⟩
  · unfold ExecutionValues.readLocation
    rw [hrngs]
    rfl
  · unfold ExecutionValues.readLogical
    rw [h]
    rfl
  · unfold ExecutionValues.scalarLocation
    rw [h]
    rfl
  · unfold ExecutionValues.setLocation
    rw [hrngs]
    rfl
  · unfold ExecutionValues.set
    rw [h]
    rfl
  · unfold ExecutionValues.setScalarLocation
    rw [h]
  · unfold ExecutionValues.retainManaged
    rw [hrngs]
    rfl
  · unfold ExecutionValues.release
    rw [hrngs]
  · unfold ExecutionValues.sourceRanges
    rw [hargs]
    dsimp only
    rw [hrngs]

/-- A read of a payload, of one window. -/
theorem Rep.scalarLocation_eq (h : Rep state lives) (slots : FrameSlots) (location : Location) :
    state.scalarLocation slots location = (state.view slots).bind fun window =>
      location.operand.scalar.bind fun slot =>
        (window.payload slot).map fun bits => (location.representation, bits) := by
  unfold ExecutionValues.scalarLocation
  dsimp only [bind_eq_bind]
  cases hwin : state.window slots with
  | none =>
    rw [h.view_none.mpr hwin]
    rfl
  | some window =>
    obtain ⟨left, live, right, rfl, rfl⟩ := h.of_window hwin
    rw [h.window] at hwin
    cases hwin
    rw [h.view, bind_some, bind_some]
    congr 1
    funext slot
    show (state.payload (rangesOf left live) slot).bind _ = _
    rw [h.payload]
    cases live.operands.payload slot <;> rfl

/-- What holds of the storage after the events of a run. -/
structure IsolatedAfter (state : ExecutionValues H) (events : List (WindowEvent H)) : Prop where
  tiled : ∃ live, Tiled state live ∧
    (live.map fun entry => entry.2.ranges.managed).Pairwise (fun extent other => extent.stop ≤ other.start) ∧
    (live.map fun entry => entry.2.ranges.scalars).Pairwise fun extent other => extent.stop ≤ other.start
  free : ∃ chain, FreeList state.windows chain
  trailing : NoTrailing state.windows
  /-- Every read is one of the windows that are each on their own. -/
  reads : ∀ slots location, state.readLocation slots location =
    (Isolated.after events slots).bind fun window => window.read location
  scalars : ∀ slots location, state.scalarLocation slots location =
    (Isolated.after events slots).bind fun window =>
      location.operand.scalar.bind fun slot =>
        (window.payload slot).map fun bits => (location.representation, bits)
  written : ∀ before later slots location value, (state.window slots).isSome → location.Banked →
    events = before ++ .written slots location value :: later →
    (∀ event ∈ later, ¬event.Touches slots location.operand) →
    state.readLocation slots location = some value
  writtenScalar : ∀ before later slots location representation bits, (state.window slots).isSome →
    events = before ++ .writtenScalar slots location representation bits :: later →
    (∀ event ∈ later, ¬event.Touches slots location.operand) →
    state.readLocation slots location = decode representation bits
  /-- What is not retained is unit. -/
  dropped : ∀ before later slots words location, (state.window slots).isSome →
    events = before ++ .retained slots words :: later →
    (∀ event ∈ later, ¬event.Touches slots location.operand) →
    location.operand.managed = true → OperandWindow.keeps words location.operand.index = false →
    ∀ value, state.readLocation slots location = some value → value = .unit
  argument : ∀ before later slots allocation front back slot argument target,
    (state.window slots).isSome → target.Banked →
    events = before ++ .allocated slots allocation :: later →
    (∀ event ∈ later, ¬event.Touches slots target.operand) →
    allocation.transfers = front ++ (slot, argument) :: back →
    destination allocation.slotLayout slot = some target →
    OperandWindow.Untouched allocation.slotLayout target.operand back →
    state.readLocation slots target = argument.given (allocation.source (Isolated.after before))
  default : ∀ before later slots allocation location, (state.window slots).isSome →
    events = before ++ .allocated slots allocation :: later →
    (∀ event ∈ later, ¬event.Touches slots location.operand) →
    OperandWindow.Untouched allocation.slotLayout location.operand allocation.transfers →
    ∀ value, state.readLocation slots location = some value → value = .unit
  released : ∀ slots, .released slots ∈ events → Dead state slots
  failed : ∀ memory (allocation : Allocation H) error state', state.allocate memory allocation.count
    allocation.parameterSlots allocation.arguments allocation.slotLayout = some (.error error, state') →
    state' = state
  panics : ∀ call, state.step call = none → ∃ memory allocation,
    call = .allocate memory allocation ∧ allocation.Unholdable

theorem read_blank {scalarCount managedCount : Nat} {value : Value H}
    (h : (OperandWindow.blank scalarCount managedCount).read location = some value) : value = .unit := by
  unfold OperandWindow.read OperandWindow.blank at h
  split at h
  · exact eq_of_mem_replicate (mem_of_getElem? h)
  · split at h
    · cases h
    · exact (some.inj h).symm
    · rename_i hmark
      cases eq_of_mem_replicate (mem_of_getElem? hmark)

/-- An argument of a new window, and an operand without one. -/
theorem initial_spec {allocation : Allocation H} {windows : Isolated H} {window : OperandWindow H}
    (h : allocation.initial windows = some window) :
    (∀ front back slot argument target, target.Banked →
      allocation.transfers = front ++ (slot, argument) :: back →
      destination allocation.slotLayout slot = some target →
      OperandWindow.Untouched allocation.slotLayout target.operand back →
      window.read target = argument.given (allocation.source windows)) ∧
    ∀ location, OperandWindow.Untouched allocation.slotLayout location.operand allocation.transfers →
      ∀ value, window.read location = some value → value = .unit := by
  obtain ⟨counts, -, h⟩ := bind_eq_some_iff.mp h
  split at h
  · rename_i hadms
    constructor
    · intro front back slot argument target hbank htr htgt hback
      rw [htr] at h hadms
      refine OperandWindow.read_transferAll hbank htgt ?_ hback h
      have harg := all_eq_true.mp hadms (slot, argument) (by simp)
      dsimp only at harg
      rw [htgt, any_some, Bool.and_eq_true] at harg
      exact harg.2
    · intro location hne value hread
      rw [(OperandWindow.transferAll_frame h hne).read] at hread
      exact read_blank hread
  · cases h

/-- The window of a live identity, and what the last event that touched an operand left there. -/
theorem readLocation_last {before later : List (WindowEvent H)}
    {event : WindowEvent H} (h : state.view = Isolated.after (before ++ event :: later))
    (hlive : (state.view slots).isSome)
    (htouch : ∀ event ∈ later, ¬event.Touches slots location.operand) :
    ∃ left, (Isolated.after before).apply event slots = some left ∧
      state.readLocation slots location = left.read location := by
  obtain ⟨window, hwin⟩ := isSome_iff_exists.mp hlive
  rw [readLocation_eq, hwin, bind_some]
  rw [h] at hwin
  exact after_last htouch hwin

theorem Rep.isolatedAfter (h : Rep state lives) (hview : state.view = Isolated.after events)
    (hreleased : ∀ slots, .released slots ∈ events → state.Gone slots) : IsolatedAfter state events := by
  have hlive : ∀ slots, (state.window slots).isSome → (state.view slots).isSome := by
    intro slots hwin
    rw [isSome_iff_ne_none] at hwin ⊢
    exact h.view_none.not.mpr hwin
  refine ⟨⟨_, h.tiled, h.tiled.managed.disjoint, h.tiled.scalars.disjoint⟩, h.free, h.trailing, ?_, ?_,
    ?_, ?_, ?_, ?_, ?_, ?_, ?_, ?_⟩
  · intro slots location
    rw [readLocation_eq, hview]
  · intro slots location
    rw [h.scalarLocation_eq, hview]
  · rintro before later slots location value hwin hbank rfl htouch
    obtain ⟨left, hleft, hread⟩ := readLocation_last hview (hlive slots hwin) htouch
    rw [Isolated.apply, update_self] at hleft
    obtain ⟨window, -, hwrt⟩ := bind_eq_some_iff.mp hleft
    rw [hread, OperandWindow.read_write hbank hwrt]
  · rintro before later slots location representation bits hwin rfl htouch
    obtain ⟨left, hleft, hread⟩ := readLocation_last hview (hlive slots hwin) htouch
    rw [Isolated.apply, update_self] at hleft
    obtain ⟨window, -, hwrt⟩ := bind_eq_some_iff.mp hleft
    rw [hread, OperandWindow.read_writeScalar hwrt]
  · rintro before later slots words location hwin rfl htouch hman hkp value hval
    obtain ⟨left, hleft, hread⟩ := readLocation_last hview (hlive slots hwin) htouch
    rw [Isolated.apply, update_self] at hleft
    obtain ⟨window, -, hwrt⟩ := bind_eq_some_iff.mp hleft
    rw [hread, OperandWindow.read_retain hwrt hman hkp] at hval
    obtain ⟨old, -, rfl⟩ := map_eq_some_iff.mp hval
    rfl
  · rintro before later slots allocation front back slot argument target hwin hbank rfl htouch
      htr htgt hback
    obtain ⟨left, hleft, hread⟩ := readLocation_last hview (hlive slots hwin) htouch
    rw [Isolated.apply, update_self] at hleft
    rw [hread, (initial_spec hleft).1 front back slot argument target hbank htr htgt hback]
  · rintro before later slots allocation location hwin rfl htouch hne value hval
    obtain ⟨left, hleft, hread⟩ := readLocation_last hview (hlive slots hwin) htouch
    rw [Isolated.apply, update_self] at hleft
    rw [hread] at hval
    exact (initial_spec hleft).2 location hne value hval
  · exact fun slots hmem => dead_of_window (h.view_none.mp (hreleased slots hmem).2)
  · intro memory allocation error state' hfail
    rcases h.allocate memory allocation with ⟨hnone, -⟩ | ⟨other, herr⟩ | ⟨initial, next, index, hinit, hok, hrest⟩
    · cases hnone.symm.trans hfail
    · cases herr.symm.trans hfail
      rfl
    · cases hok.symm.trans hfail
  · intro call hpanic
    cases call with
    | allocate memory allocation =>
      refine ⟨memory, allocation, rfl, ?_⟩
      rcases h.allocate memory allocation with ⟨-, hunh⟩ | ⟨other, herr⟩ | ⟨initial, next, index, hinit, hok, hrest⟩
      · exact hunh
      · cases herr.symm.trans (map_eq_none_iff.mp hpanic)
      · cases hok.symm.trans (map_eq_none_iff.mp hpanic)
    | set slots location value => cases hpanic
    | setScalar slots location representation bits => cases hpanic
    | retain slots words => cases hpanic
    | release slots =>
      obtain ⟨result, hrls, -⟩ := h.release_stepped slots
      cases hrls.symm.trans (map_eq_none_iff.mp hpanic)

/-- Over every run the windows are isolated. -/
theorem run_isolated (owner : Nat) {calls : List (WindowCall H)} {state : ExecutionValues H}
    {events : List (WindowEvent H)} (h : run calls (.empty owner) = some (state, events)) :
    IsolatedAfter state events := by
  have hstepd := (empty_rep owner).run h
  obtain ⟨lives, hrep⟩ := hstepd.rep
  refine hrep.isolatedAfter ?_ hstepd.released
  rw [hstepd.view, empty_view]
  rfl

/-- A scalar and a managed slot. -/
def pairLayout : FrameLayout :=
  ⟨[⟨⟨0, false⟩, .i32, none, false⟩, ⟨⟨0, true⟩, .str, none, false⟩], 1, 1⟩

/-- Two windows, the second with arguments; the first goes, and its slot is used again. -/
def interiorCalls : List (WindowCall Nat) :=
  let scalar : Location := ⟨⟨0, false⟩, .i32, none, false⟩
  [.allocate (fun _ => true) ⟨2, [0], ⟨[], .values [.i32 5]⟩, some pairLayout⟩,
    .allocate (fun _ => true) ⟨2, [0, 1], ⟨[.i32 6], .values [.str 3]⟩, some pairLayout⟩,
    .set ⟨7, 1, 2⟩ scalar (.i32 8),
    .release ⟨7, 0, 1⟩,
    .allocate (fun _ => true) ⟨2, [0], ⟨[], .window ⟨7, 1, 2⟩ [scalar]⟩, some pairLayout⟩,
    .set ⟨7, 0, 1⟩ scalar (.i32 9)]

theorem run_isolated_interior : ∃ state events,
    run interiorCalls (.empty 7) = some (state, events) ∧ IsolatedAfter state events ∧
      state.readLocation ⟨7, 0, 3⟩ ⟨⟨0, false⟩, .i32, none, false⟩ = some (.i32 8) ∧
      state.readLocation ⟨7, 0, 1⟩ ⟨⟨0, false⟩, .i32, none, false⟩ = none := by
  have hsome : (run interiorCalls (.empty 7)).isSome := rfl
  have hnew : (run interiorCalls (.empty 7)).map (fun result =>
      result.1.readLocation ⟨7, 0, 3⟩ ⟨⟨0, false⟩, .i32, none, false⟩) = some (some (.i32 8)) := rfl
  have hold : (run interiorCalls (.empty 7)).map (fun result =>
      result.1.readLocation ⟨7, 0, 1⟩ ⟨⟨0, false⟩, .i32, none, false⟩) = some none := rfl
  obtain ⟨⟨state, events⟩, hrun⟩ := Option.isSome_iff_exists.mp hsome
  rw [hrun] at hnew hold
  exact ⟨state, events, hrun, run_isolated 7 hrun, Option.some.inj hnew, Option.some.inj hold⟩

end ExecutionValues

end Kagari.Runtime
