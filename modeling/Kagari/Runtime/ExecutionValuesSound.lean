import Kagari.Runtime.ExecutionValues
import Kagari.Runtime.OperandsSound
import Kagari.Runtime.WindowsSound

/-!
# Execution windows are isolated

The storage stands for a list of live windows, each with its own banks (`Rep`): the banks of the
storage are theirs, one after another in the order of allocation. Every operation is one on the list:
a write changes one window, `allocate` adds one at the end, `release` takes one out.
-/

namespace Kagari.Runtime

open Lib List Option

/-! ## Ranges of a list -/

section Extent

variable {α : Type} {left right middle : List α} {n m : Nat}

theorem slice_middle (hn : left.length = n) (hm : n + middle.length = m) :
    (⟨n, m⟩ : Extent).slice (left ++ (middle ++ right)) = some middle := by
  subst hn
  subst hm
  unfold Extent.slice Extent.len
  rw [if_pos ⟨Nat.le_add_right _ _, by simp⟩, Nat.add_sub_cancel_left, drop_left, take_left]

theorem splice_middle (hn : left.length = n) (hm : n + middle.length = m) (other : List α) :
    (⟨n, m⟩ : Extent).splice (left ++ (middle ++ right)) other = left ++ (other ++ right) := by
  subst hn
  subst hm
  unfold Extent.splice
  rw [take_left, ← append_assoc left middle, ← length_append, drop_left,
    append_assoc]

theorem drain_middle (hn : left.length = n) (hm : n + middle.length = m) :
    (⟨n, m⟩ : Extent).drain (left ++ (middle ++ right)) = left ++ right := by
  subst hn
  subst hm
  unfold Extent.drain
  rw [take_left, ← append_assoc left middle, ← length_append, drop_left]

end Extent

/-! ## Live windows -/

/-- A live window with its own banks. -/
structure Live (H : Type) where
  index : Nat
  generation : Nat
  layout : Option FrameLayout
  operands : OperandWindow H

variable {H : Type}

variable {lives : List (Live H)} {managed scalars scalarCount managedCount : Nat}
  {windows : Windows Window} (left right : List (Live H)) {bits : BitVec 64} {location : Location}

namespace Live

def managedOf (lives : List (Live H)) : List (Value H) := lives.flatMap fun live => live.operands.managed

def payloadsOf (lives : List (Live H)) : List (BitVec 64) :=
  lives.flatMap fun live => live.operands.payloads

def initializedOf (lives : List (Live H)) : List Bool :=
  lives.flatMap fun live => live.operands.initialized

/-- The ranges of a window that begins at the given places. -/
def rangesAt (managed scalars : Nat) (live : Live H) : WindowRanges :=
  ⟨⟨scalars, scalars + live.operands.payloads.length⟩,
    ⟨managed, managed + live.operands.managed.length⟩⟩

def windowAt (managed scalars : Nat) (live : Live H) : Window :=
  ⟨live.generation, live.rangesAt managed scalars, live.layout⟩

/-- The table has the windows, with ranges one after another. -/
def Placed (windows : Windows Window) : Nat → Nat → List (Live H) → Prop
  | _, _, [] => True
  | managed, scalars, live :: rest =>
    windows.get live.index = some (live.windowAt managed scalars) ∧
      Placed windows (managed + live.operands.managed.length)
        (scalars + live.operands.payloads.length) rest

theorem placed_append {left right : List (Live H)} :
    Placed windows managed scalars (left ++ right) ↔ Placed windows managed scalars left ∧
      Placed windows (managed + (managedOf left).length) (scalars + (payloadsOf left).length) right := by
  induction left generalizing managed scalars with
  | nil => simp [Placed, managedOf, payloadsOf]
  | cons live left ih =>
    rw [cons_append, Placed, Placed, ih, and_assoc]
    have hman : managed + live.operands.managed.length + (managedOf left).length =
        managed + (managedOf (live :: left)).length := by
      unfold managedOf
      rw [flatMap_cons, length_append]
      omega
    have hscals : scalars + live.operands.payloads.length + (payloadsOf left).length =
        scalars + (payloadsOf (live :: left)).length := by
      unfold payloadsOf
      rw [flatMap_cons, length_append]
      omega
    rw [hman, hscals]

/-- A table that agrees on the windows has them too. -/
theorem Placed.congr {windows windows' : Windows Window}
    (h : Placed windows managed scalars lives)
    (hget : ∀ live ∈ lives, windows'.get live.index = windows.get live.index) :
    Placed windows' managed scalars lives := by
  induction lives generalizing managed scalars with
  | nil => trivial
  | cons live lives ih =>
    refine ⟨(hget live mem_cons_self).trans h.1, ih h.2 fun other hother => ?_⟩
    exact hget other (mem_cons_of_mem _ hother)

theorem managedOf_append :
    managedOf (left ++ right) = managedOf left ++ managedOf right := flatMap_append

theorem payloadsOf_append :
    payloadsOf (left ++ right) = payloadsOf left ++ payloadsOf right := flatMap_append

theorem initializedOf_append :
    initializedOf (left ++ right) = initializedOf left ++ initializedOf right := flatMap_append

theorem managedOf_split (live : Live H) :
    managedOf (left ++ live :: right) =
      managedOf left ++ (live.operands.managed ++ managedOf right) := by
  rw [managedOf_append]
  rfl

theorem payloadsOf_split (live : Live H) :
    payloadsOf (left ++ live :: right) =
      payloadsOf left ++ (live.operands.payloads ++ payloadsOf right) := by
  rw [payloadsOf_append]
  rfl

theorem initializedOf_split (live : Live H) :
    initializedOf (left ++ live :: right) =
      initializedOf left ++ (live.operands.initialized ++ initializedOf right) := by
  rw [initializedOf_append]
  rfl

/-- A mark for each payload. -/
def Even (lives : List (Live H)) : Prop :=
  ∀ live ∈ lives, live.operands.initialized.length = live.operands.payloads.length

theorem Even.length (h : Even lives) :
    (initializedOf lives).length = (payloadsOf lives).length := by
  unfold initializedOf payloadsOf
  rw [length_flatMap, length_flatMap]
  exact congrArg List.sum (map_congr_left h)

end Live

open Live

namespace ExecutionValues

/-- The banks are those of the windows, one after another. -/
structure Banks (state : ExecutionValues H) (lives : List (Live H)) : Prop where
  values : state.values = managedOf lives
  payloads : state.payloads = payloadsOf lives
  initialized : state.initialized = initializedOf lives
  even : Even lives

/-- The storage stands for the live windows, in the order of their allocation. -/
structure Rep (state : ExecutionValues H) (lives : List (Live H)) : Prop extends Banks state lives where
  order : state.allocationOrder = lives.map Live.index
  nodup : (lives.map Live.index).Nodup
  placed : Placed state.windows 0 0 lives
  only : ∀ i window, state.windows.get i = some window → i ∈ lives.map Live.index
  generations : ∀ live ∈ lives, live.generation ≤ state.nextGeneration
  sorted : (lives.map Live.generation).Pairwise (· < ·)
  free : ∃ chain, FreeList state.windows chain
  trailing : NoTrailing state.windows

variable {state : ExecutionValues H} {lives left right : List (Live H)} {live : Live H}

/-- The identity of a live window. -/
def nameOf (state : ExecutionValues H) (live : Live H) : FrameSlots :=
  ⟨state.owner, live.index, live.generation⟩

/-- Its ranges, behind the windows on its left. -/
def rangesOf (left : List (Live H)) (live : Live H) : WindowRanges :=
  live.rangesAt (managedOf left).length (payloadsOf left).length

theorem Rep.get (h : Rep state (left ++ live :: right)) :
    state.windows.get live.index =
      some (live.windowAt (managedOf left).length (payloadsOf left).length) := by
  have hplcd := (placed_append.mp h.placed).2
  rw [Nat.zero_add, Nat.zero_add] at hplcd
  exact hplcd.1

theorem Rep.window (h : Rep state (left ++ live :: right)) :
    state.window (state.nameOf live) =
      some (live.windowAt (managedOf left).length (payloadsOf left).length) := by
  unfold ExecutionValues.window nameOf
  rw [if_neg (not_not_intro rfl), h.get, filter_some]
  exact if_pos (decide_eq_true rfl)

variable {slots : FrameSlots}

/-- Every identity that is accepted is that of a live window. -/
theorem Rep.of_window (h : Rep state lives) {window : Window}
    (hwin : state.window slots = some window) :
    ∃ left live right, lives = left ++ live :: right ∧ slots = state.nameOf live := by
  unfold ExecutionValues.window at hwin
  split at hwin
  · cases hwin
  · rename_i howner
    obtain ⟨hget, hgeneration⟩ := filter_eq_some_iff.mp hwin
    obtain ⟨live, hmem, hidx⟩ := mem_map.mp (h.only _ _ hget)
    obtain ⟨left, right, rfl⟩ := append_of_mem hmem
    refine ⟨left, live, right, rfl, ?_⟩
    have hsame := h.get
    rw [hidx, hget] at hsame
    cases hsame
    obtain ⟨owner, index, generation⟩ := slots
    have hown : owner = state.owner := not_not.mp howner
    have hgen : live.generation = generation := of_decide_eq_true hgeneration
    have hplc : live.index = index := hidx
    unfold nameOf
    rw [hown, hgen, hplc]

theorem Rep.ranges (h : Rep state (left ++ live :: right)) :
    state.ranges (state.nameOf live) = some (rangesOf left live) := by
  unfold ExecutionValues.ranges
  rw [h.window]
  rfl

/-- The marks before a window and of it are as many as the payloads. -/
theorem Banks.marks (h : Banks state (left ++ live :: right)) :
    (initializedOf left).length = (payloadsOf left).length ∧
      live.operands.initialized.length = live.operands.payloads.length := by
  refine ⟨Even.length fun other hother => h.even other (mem_append_left _ hother), ?_⟩
  exact h.even live (mem_append_right _ mem_cons_self)

theorem Banks.operands (h : Banks state (left ++ live :: right)) :
    state.operands (rangesOf left live) = some live.operands := by
  obtain ⟨hinit, hlive⟩ := h.marks
  unfold ExecutionValues.operands rangesOf rangesAt
  dsimp only [bind_eq_bind]
  rw [h.values, h.payloads, h.initialized, managedOf_split, payloadsOf_split, initializedOf_split,
    slice_middle rfl rfl, bind_some, slice_middle rfl rfl, bind_some,
    slice_middle hinit (by rw [hlive]), bind_some]

/-- The banks of a window, through its identity. -/
def view (state : ExecutionValues H) (slots : FrameSlots) : Option (OperandWindow H) :=
  (state.ranges slots).bind state.operands

theorem Rep.view (h : Rep state (left ++ live :: right)) :
    state.view (state.nameOf live) = some live.operands := by
  unfold ExecutionValues.view
  rw [h.ranges, bind_some, h.operands]

theorem Rep.of_view (h : Rep state lives) {operands : OperandWindow H}
    (hview : state.view slots = some operands) :
    ∃ left live right, lives = left ++ live :: right ∧ slots = state.nameOf live ∧
      live.operands = operands := by
  obtain ⟨ranges, hrngs, hopnds⟩ := bind_eq_some_iff.mp hview
  obtain ⟨window, hwin, rfl⟩ := map_eq_some_iff.mp hrngs
  obtain ⟨left, live, right, rfl, rfl⟩ := h.of_window hwin
  refine ⟨left, live, right, rfl, rfl, ?_⟩
  exact some.inj (h.view.symm.trans hview)

/-- What the list of live windows holds for an identity. -/
def lookup (owner : Nat) (lives : List (Live H)) (slots : FrameSlots) : Option (OperandWindow H) :=
  (lives.find? fun live => decide (slots = ⟨owner, live.index, live.generation⟩)).map Live.operands

theorem Rep.view_eq (h : Rep state lives) (slots : FrameSlots) :
    state.view slots = lookup state.owner lives slots := by
  unfold lookup
  cases hfind : lives.find? fun live => decide (slots = ⟨state.owner, live.index, live.generation⟩) with
  | none =>
    have hnone := find?_eq_none.mp hfind
    cases hview : state.view slots with
    | none => rfl
    | some operands =>
      obtain ⟨left, live, right, rfl, rfl, -⟩ := h.of_view hview
      exact absurd (decide_eq_true rfl) (hnone live (mem_append_right _ mem_cons_self))
  | some live =>
    have hname : slots = state.nameOf live := by simpa [nameOf] using find?_some hfind
    obtain ⟨left, right, rfl⟩ := append_of_mem (mem_of_find?_eq_some hfind)
    rw [hname, h.view]
    rfl

/-- Another identity does not see the window. -/
theorem lookup_split {owner : Nat}
    (hother : slots ≠ ⟨owner, live.index, live.generation⟩) :
    lookup owner (left ++ live :: right) slots = lookup owner (left ++ right) slots := by
  unfold lookup
  rw [find?_append, find?_append, find?_cons_of_neg (by simpa using hother)]

/-- Banks of the same widths. -/
structure SameWidths (operands operands' : OperandWindow H) : Prop where
  managed : operands'.managed.length = operands.managed.length
  payloads : operands'.payloads.length = operands.payloads.length
  initialized : operands'.initialized.length = operands.initialized.length

theorem placed_same (live live' : Live H)
    (hidx : live'.index = live.index) (hgeneration : live'.generation = live.generation)
    (hlay : live'.layout = live.layout) (hwids : SameWidths live.operands live'.operands) :
    Placed windows managed scalars (left ++ live' :: right) ↔
      Placed windows managed scalars (left ++ live :: right) := by
  rw [placed_append, placed_append, Placed, Placed]
  unfold windowAt rangesAt
  rw [hidx, hgeneration, hlay, hwids.managed, hwids.payloads]

/-- A write through the ranges of a window changes its banks. -/
theorem Banks.writeBack (h : Banks state (left ++ live :: right)) {operands : OperandWindow H}
    (hwids : SameWidths live.operands operands) :
    Banks (state.writeBack (rangesOf left live) operands)
      (left ++ { live with operands := operands } :: right) := by
  obtain ⟨hinit, hlive⟩ := h.marks
  refine ⟨?_, ?_, ?_, fun other hother => ?_⟩
  · show (rangesOf left live).managed.splice state.values operands.managed = _
    rw [h.values, managedOf_split, managedOf_split]
    exact splice_middle rfl rfl _
  · show (rangesOf left live).scalars.splice state.payloads operands.payloads = _
    rw [h.payloads, payloadsOf_split, payloadsOf_split]
    exact splice_middle rfl rfl _
  · show (rangesOf left live).scalars.splice state.initialized operands.initialized = _
    rw [h.initialized, initializedOf_split, initializedOf_split]
    exact splice_middle hinit (by rw [hlive]) _
  · rcases mem_append.mp hother with hother | hother
    · exact h.even other (mem_append_left _ hother)
    · rcases mem_cons.mp hother with rfl | hother
      · show operands.initialized.length = operands.payloads.length
        rw [hwids.initialized, hwids.payloads, hlive]
      · exact h.even other (mem_append_right _ (mem_cons_of_mem _ hother))

theorem Rep.writeBack (h : Rep state (left ++ live :: right)) {operands : OperandWindow H}
    (hwids : SameWidths live.operands operands) :
    Rep (state.writeBack (rangesOf left live) operands)
      (left ++ { live with operands := operands } :: right) := by
  have hidxs : (left ++ { live with operands := operands } :: right).map Live.index =
      (left ++ live :: right).map Live.index := by
    rw [map_append, map_append]
    rfl
  have hgenerations : (left ++ { live with operands := operands } :: right).map Live.generation =
      (left ++ live :: right).map Live.generation := by
    rw [map_append, map_append]
    rfl
  refine ⟨h.toBanks.writeBack hwids, ?_, ?_, ?_, ?_, fun other hother => ?_, ?_, h.free, h.trailing⟩
  · rw [hidxs]
    exact h.order
  · rw [hidxs]
    exact h.nodup
  · exact (placed_same live { live with operands := operands } rfl rfl rfl hwids).mpr h.placed
  · rw [hidxs]
    exact h.only
  · rcases mem_append.mp hother with hother | hother
    · exact h.generations other (mem_append_left _ hother)
    · rcases mem_cons.mp hother with rfl | hother
      · exact h.generations live (mem_append_right _ mem_cons_self)
      · exact h.generations other (mem_append_right _ (mem_cons_of_mem _ hother))
  · rw [hgenerations]
    exact h.sorted

/-- What a write through one identity does: its banks change, no other's. -/
theorem Rep.writeBack_view (h : Rep state (left ++ live :: right)) {operands : OperandWindow H}
    (hwids : SameWidths live.operands operands) (slots : FrameSlots) :
    (state.writeBack (rangesOf left live) operands).view slots =
      if slots = state.nameOf live then some operands else state.view slots := by
  have hrep := h.writeBack hwids
  split
  · rename_i hname
    rw [hname]
    exact hrep.view
  · rename_i hname
    rw [hrep.view_eq, h.view_eq, lookup_split hname]
    exact lookup_split hname

/-! ## Operations of one window -/

theorem writePayload_widths {operands written : OperandWindow H} {slot : Nat}
    (h : operands.writePayload slot bits = some written) : SameWidths operands written := by
  obtain ⟨-, -, rfl⟩ := OperandWindow.writePayload_cases h
  exact ⟨rfl, length_set, length_set⟩

theorem write_widths {operands written : OperandWindow H} {value : Value H}
    (h : operands.write location value = some written) : SameWidths operands written := by
  obtain ⟨-, ⟨-, -, rfl⟩ | ⟨-, bits, -, hwrt⟩⟩ := OperandWindow.write_cases h
  · exact ⟨length_set, rfl, rfl⟩
  · exact writePayload_widths hwrt

theorem writeScalar_widths {operands written : OperandWindow H}
    {representation : ValueType}
    (h : operands.writeScalar location representation bits = some written) :
    SameWidths operands written := by
  obtain ⟨-, value, -, hwrt⟩ | ⟨-, -, hwrt⟩ := OperandWindow.writeScalar_cases h
  · exact write_widths hwrt
  · exact writePayload_widths hwrt

theorem retain_widths {operands kept : OperandWindow H} {retained : List (BitVec 64)}
    (h : operands.retain retained = some kept) : SameWidths operands kept := by
  obtain rfl := OperandWindow.retain_cases h
  exact ⟨length_mapIdx, rfl, rfl⟩

/-! ## Reads and writes through an identity -/

/-- The payload in the bank is that of the window. -/
theorem Banks.payload (h : Banks state (left ++ live :: right)) (slot : Nat) :
    state.payload (rangesOf left live) slot = live.operands.payload slot := by
  obtain ⟨hinit, hlive⟩ := h.marks
  unfold ExecutionValues.payload OperandWindow.payload rangesOf rangesAt Extent.len
  dsimp only
  rw [Nat.add_sub_cancel_left, h.payloads, h.initialized, payloadsOf_split, initializedOf_split]
  by_cases hslot : live.operands.payloads.length ≤ slot
  · rw [if_pos hslot, getElem?_eq_none (hlive ▸ hslot)]
  · rw [if_neg hslot, ← hinit]
    have hmark : (initializedOf left ++ (live.operands.initialized ++ initializedOf right))[
        (initializedOf left).length + slot]? = live.operands.initialized[slot]? := by
      rw [getElem?_append_right (Nat.le_add_right _ _), Nat.add_sub_cancel_left,
        getElem?_append_left (by omega)]
    have hword : (payloadsOf left ++ (live.operands.payloads ++ payloadsOf right))[
        (initializedOf left).length + slot]? = live.operands.payloads[slot]? := by
      rw [hinit, getElem?_append_right (Nat.le_add_right _ _), Nat.add_sub_cancel_left,
        getElem?_append_left (by omega)]
    generalize (initializedOf left ++ (live.operands.initialized ++ initializedOf right))[
      (initializedOf left).length + slot]? = mark at hmark ⊢
    generalize (payloadsOf left ++ (live.operands.payloads ++ payloadsOf right))[
      (initializedOf left).length + slot]? = word at hword ⊢
    subst hmark hword
    rfl

theorem set_middle {α : Type} {left middle right : List α} {i : Nat} (hi : i < middle.length) (a : α) :
    (left ++ (middle ++ right)).set (left.length + i) a = left ++ (middle.set i a ++ right) := by
  rw [set_append_right _ _ (Nat.le_add_right _ _), Nat.add_sub_cancel_left,
    set_append_left _ _ hi]

theorem Banks.writePayload (h : Banks state (left ++ live :: right)) (slot : Nat) (bits : BitVec 64) :
    state.writePayload (rangesOf left live) slot bits =
      (live.operands.writePayload slot bits).map (state.writeBack (rangesOf left live)) := by
  obtain ⟨hinit, hlive⟩ := h.marks
  have hlen : (rangesOf left live).scalars.len = live.operands.payloads.length :=
    Nat.add_sub_cancel_left _ _
  have hst : (rangesOf left live).scalars.start = (payloadsOf left).length := rfl
  unfold ExecutionValues.writePayload OperandWindow.writePayload
  rw [hlen, hst]
  by_cases hslot : live.operands.payloads.length ≤ slot
  · rw [if_pos hslot, if_neg fun hlt => absurd hlt.1 (Nat.not_lt.mpr hslot)]
    rfl
  · have hlt : slot < live.operands.payloads.length := Nat.lt_of_not_le hslot
    have hbanks : (payloadsOf left).length + slot < state.payloads.length ∧
        (payloadsOf left).length + slot < state.initialized.length := by
      rw [h.payloads, h.initialized, payloadsOf_split, initializedOf_split, length_append,
        length_append, length_append, length_append]
      omega
    rw [if_neg hslot, if_pos hbanks, if_pos ⟨hlt, hlive ▸ hlt⟩, map_some]
    congr 1
    unfold ExecutionValues.writeBack
    congr 1
    · show state.values = (rangesOf left live).managed.splice state.values live.operands.managed
      rw [h.values, managedOf_split]
      exact (splice_middle rfl rfl _).symm
    · show state.payloads.set _ bits = (rangesOf left live).scalars.splice state.payloads _
      rw [h.payloads, payloadsOf_split, set_middle hlt]
      exact (splice_middle rfl rfl _).symm
    · show state.initialized.set _ true = (rangesOf left live).scalars.splice state.initialized _
      rw [h.initialized, initializedOf_split, ← hinit, set_middle (hlive ▸ hlt)]
      exact (splice_middle hinit (by rw [hlive]) _).symm

theorem readLocation_eq (state : ExecutionValues H) (slots : FrameSlots) (location : Location) :
    state.readLocation slots location = (state.view slots).bind fun window => window.read location :=
  (bind_assoc _ _ _).symm

/-- A change of one window's banks, through its identity. -/
def through (state : ExecutionValues H) (slots : FrameSlots)
    (f : OperandWindow H → Option (OperandWindow H)) : Option (ExecutionValues H) :=
  (state.ranges slots).bind fun ranges =>
    (state.operands ranges).bind fun operands => (f operands).map (state.writeBack ranges)

theorem setLocation_eq (state : ExecutionValues H) (slots : FrameSlots) (location : Location)
    (value : Value H) :
    state.setLocation slots location value = state.through slots fun window => window.write location value := by
  unfold setLocation writeRange through
  dsimp only [bind_eq_bind]
  congr 1
  funext ranges
  congr 1
  funext operands
  cases operands.write location value <;> rfl

theorem retainManaged_eq (state : ExecutionValues H) (slots : FrameSlots) (retained : List (BitVec 64)) :
    state.retainManaged slots retained = state.through slots fun window => window.retain retained := by
  unfold retainManaged through
  dsimp only [bind_eq_bind]
  congr 1
  funext ranges
  congr 1
  funext operands
  cases operands.retain retained <;> rfl

theorem Rep.through_eq (h : Rep state (left ++ live :: right))
    (f : OperandWindow H → Option (OperandWindow H)) :
    state.through (state.nameOf live) f = (f live.operands).map (state.writeBack (rangesOf left live)) := by
  unfold through
  rw [h.ranges, bind_some, h.operands, bind_some]

theorem Rep.setScalarLocation_eq (h : Rep state lives) (slots : FrameSlots) (location : Location)
    (representation : ValueType) (bits : BitVec 64) :
    state.setScalarLocation slots location representation bits =
      state.through slots fun window => window.writeScalar location representation bits := by
  unfold setScalarLocation
  cases hwin : state.window slots with
  | none =>
    unfold through ExecutionValues.ranges
    rw [hwin]
    rfl
  | some window =>
    obtain ⟨left, live, right, rfl, rfl⟩ := h.of_window hwin
    rw [h.window] at hwin
    cases hwin
    rw [h.through_eq]
    unfold OperandWindow.writeScalar
    dsimp only
    by_cases hman : location.operand.managed = true
    · rw [if_pos hman, if_pos hman]
      cases decode representation bits with
      | none => rfl
      | some value =>
        show state.setLocation _ location value = _
        rw [setLocation_eq, h.through_eq]
        rfl
    · rw [if_neg hman, if_neg hman]
      split
      · rfl
      · cases location.operand.scalar with
        | none => rfl
        | some slot => exact h.writePayload slot bits

variable {state' : ExecutionValues H}

/-- What a successful change leaves. -/
theorem Rep.through_some (h : Rep state lives)
    {f : OperandWindow H → Option (OperandWindow H)}
    (hf : ∀ window written, f window = some written → SameWidths window written)
    (hthru : state.through slots f = some state') :
    ∃ lives' written, Rep state' lives' ∧ (state.view slots).bind f = some written ∧
      (∀ other, state'.view other = if other = slots then some written else state.view other) ∧
      state'.nextGeneration = state.nextGeneration := by
  obtain ⟨ranges, hrngs, -⟩ := bind_eq_some_iff.mp hthru
  obtain ⟨window, hwin, -⟩ := map_eq_some_iff.mp hrngs
  obtain ⟨left, live, right, rfl, rfl⟩ := h.of_window hwin
  rw [h.through_eq] at hthru
  obtain ⟨written, hwrtn, rfl⟩ := map_eq_some_iff.mp hthru
  have hwids := hf _ _ hwrtn
  refine ⟨_, written, h.writeBack hwids, ?_, h.writeBack_view hwids, rfl⟩
  rw [h.view, bind_some, hwrtn]

/-! ## Release -/

theorem rposition_eq {before after : List Nat} {item : Nat} (h : item ∉ after) :
    rposition (before ++ item :: after) item = some before.length := by
  have hrevs : (before ++ item :: after).reverse = after.reverse ++ item :: before.reverse := by simp
  unfold rposition
  rw [hrevs]
  have hidx : (after.reverse ++ item :: before.reverse).idxOf? item = some after.length := by
    unfold List.idxOf?
    rw [findIdx?_append, findIdx?_eq_none_iff.mpr fun other hother => ?_, findIdx?_cons]
    · simp
    · exact beq_false_of_ne (ne_of_mem_of_not_mem (mem_reverse.mp hother) h)
  rw [hidx, map_some]
  congr 1
  simp only [length_append, length_cons]
  omega

/-- Later windows move down by the widths of the one that has gone. -/
theorem moveAll_spec : ∀ {lives : List (Live H)} {windows : Windows Window}
    {m s : Nat} {chain : List Nat}, (lives.map Live.index).Nodup →
    Placed windows (m + managed) (s + scalars) lives → FreeList windows chain → NoTrailing windows →
    ∃ moved, moveAll managed scalars (lives.map Live.index) windows = some moved ∧
      Placed moved m s lives ∧ FreeList moved chain ∧ NoTrailing moved ∧
      (∀ i, i ∉ lives.map Live.index → moved.get i = windows.get i) ∧
      ∀ i, (moved.get i).isSome = (windows.get i).isSome := by
  intro lives
  induction lives with
  | nil => exact fun _ _ hfree htrail => ⟨_, rfl, trivial, hfree, htrail, fun _ _ => rfl, fun _ => rfl⟩
  | cons live lives ih =>
    intro windows m s chain hnd hplcd hfree htrail
    obtain ⟨hget, hplcd⟩ := hplcd
    obtain ⟨hnot, hnd⟩ := nodup_cons.mp hnd
    obtain ⟨updated, hupd, hfree', htrail', hgets⟩ :=
      update_spec hfree htrail hget (moveDown managed scalars)
    have hoths : ∀ other ∈ lives, updated.get other.index = windows.get other.index := by
      intro other hother
      rw [hgets, if_neg]
      exact fun heq => hnot (heq ▸ mem_map_of_mem hother)
    have hrest : Placed updated (m + live.operands.managed.length + managed)
        (s + live.operands.payloads.length + scalars) lives := by
      have hplcd := hplcd.congr hoths
      rwa [Nat.add_right_comm m, Nat.add_right_comm s] at hplcd
    obtain ⟨moved, hmov, hplcd', hfree'', htrail'', hsame, hsome⟩ := ih hnd hrest hfree' htrail'
    refine ⟨moved, ?_, ⟨?_, hplcd'⟩, hfree'', htrail'', fun i hi => ?_, fun i => ?_⟩
    · show (windows.update live.index _).bind _ = _
      rw [hupd, bind_some]
      exact hmov
    · rw [hsame _ hnot, hgets, if_pos rfl]
      unfold moveDown windowAt rangesAt Extent.shiftDown
      dsimp only
      congr 4 <;> omega
    · obtain ⟨hne, hi⟩ := not_or.mp (mem_cons.not.mp hi)
      rw [hsame i hi, hgets, if_neg hne]
    · rw [hsome, hgets]
      split
      · rename_i heq
        rw [heq, hget]
        rfl
      · rfl

theorem compact_spec {m s : Nat} {chain : List Nat}
    (hnd : (lives.map Live.index).Nodup) (hplcd : Placed windows (m + managed) (s + scalars) lives)
    (hfree : FreeList windows chain) (htrail : NoTrailing windows) :
    ∃ moved, compact managed scalars (lives.map Live.index) windows = some moved ∧
      Placed moved m s lives ∧ FreeList moved chain ∧ NoTrailing moved ∧
      (∀ i, i ∉ lives.map Live.index → moved.get i = windows.get i) ∧
      ∀ i, (moved.get i).isSome = (windows.get i).isSome := by
  unfold compact
  split
  · exact moveAll_spec hnd hplcd hfree htrail
  · rename_i hzero
    obtain ⟨hman, hscals⟩ : managed = 0 ∧ scalars = 0 := by simpa using hzero
    rw [hman, hscals] at hplcd
    exact ⟨windows, rfl, hplcd, hfree, htrail, fun _ _ => rfl, fun _ => rfl⟩

/-- The windows of a list without one of them. -/
theorem Rep.without (h : Rep state (left ++ live :: right))
    (hord : state'.allocationOrder = (left ++ right).map Live.index)
    (hvals : state'.values = managedOf (left ++ right))
    (hpayloads : state'.payloads = payloadsOf (left ++ right))
    (hinitialized : state'.initialized = initializedOf (left ++ right))
    (hgeneration : state'.nextGeneration = state.nextGeneration)
    (hplcd : Placed state'.windows 0 0 (left ++ right))
    (honly : ∀ i, (state'.windows.get i).isSome → i ≠ live.index ∧ (state.windows.get i).isSome)
    (hfree : ∃ chain, FreeList state'.windows chain) (htrail : NoTrailing state'.windows) :
    Rep state' (left ++ right) := by
  have hsub : (left ++ right).Sublist (left ++ live :: right) :=
    (sublist_cons_self live right).append_left left
  refine ⟨⟨hvals, hpayloads, hinitialized, fun other hother => h.even other (hsub.mem hother)⟩,
    hord, h.nodup.sublist (hsub.map _), hplcd, fun i window hget => ?_, fun other hother => ?_,
    h.sorted.sublist (hsub.map _), hfree, htrail⟩
  · obtain ⟨hne, hsome⟩ := honly i (by rw [hget]; rfl)
    obtain ⟨before, hbef⟩ := isSome_iff_exists.mp hsome
    have hmem := h.only i before hbef
    rw [map_append, map_cons, mem_append, mem_cons] at hmem
    rw [map_append, mem_append]
    tauto
  · rw [hgeneration]
    exact h.generations other (hsub.mem hother)

theorem Rep.release (h : Rep state (left ++ live :: right)) :
    ∃ state', state.release (state.nameOf live) = some (some state') ∧ Rep state' (left ++ right) ∧
      state'.owner = state.owner ∧ state'.nextGeneration = state.nextGeneration := by
  obtain ⟨chain, hfree⟩ := h.free
  obtain ⟨retired, chain', hretr, hfree', htrail', hgets⟩ := retire_spec hfree h.trailing h.get
  have hnd := h.nodup
  rw [map_append, map_cons] at hnd
  obtain ⟨hleftNodup, hconsNodup, hdisj⟩ := nodup_append.mp hnd
  obtain ⟨hnot, hrightNodup⟩ := nodup_cons.mp hconsNodup
  have hpos : rposition state.allocationOrder (state.nameOf live).index = some left.length := by
    show rposition state.allocationOrder live.index = _
    rw [h.order, map_append, map_cons, rposition_eq hnot, length_map]
  have herase : state.allocationOrder.eraseIdx left.length = (left ++ right).map Live.index := by
    rw [h.order, map_append, map_append, map_cons, ← length_map (f := Live.index),
      eraseIdx_append_of_length_le (Nat.le_refl _), Nat.sub_self, eraseIdx_cons_zero]
  -- the windows on the left stay where they are
  have hleft : Placed retired 0 0 left := by
    refine (placed_append.mp h.placed).1.congr fun other hother => ?_
    rw [hgets, if_neg fun heq => ?_]
    exact hdisj _ (mem_map_of_mem hother) _ mem_cons_self heq
  obtain ⟨hinit, hlive⟩ := h.marks
  unfold ExecutionValues.release
  rw [h.ranges, hpos]
  dsimp only [bind_eq_bind, nameOf]
  rw [hretr, bind_some]
  by_cases htail : left.length + 1 = state.allocationOrder.length
  · rw [if_pos htail]
    have hnil : right = [] := by
      rw [h.order, length_map, length_append, length_cons] at htail
      exact length_eq_zero_iff.mp (by omega)
    subst hnil
    refine ⟨_, rfl, h.without herase ?_ ?_ ?_ rfl ?_ ?_ ⟨_, hfree'⟩ htrail', rfl, rfl⟩
    · show state.values.take (managedOf left).length = _
      rw [h.values, managedOf_split, take_left, append_nil]
    · show state.payloads.take (payloadsOf left).length = _
      rw [h.payloads, payloadsOf_split, take_left, append_nil]
    · show state.initialized.take (payloadsOf left).length = _
      rw [h.initialized, initializedOf_split, ← hinit, take_left, append_nil]
    · rw [append_nil]
      exact hleft
    · intro i hsome
      dsimp only at hsome
      rw [hgets] at hsome
      split at hsome
      · cases hsome
      · rename_i hne
        exact ⟨hne, hsome⟩
  · have hrt : Placed retired (0 + (managedOf left).length + live.operands.managed.length)
        (0 + (payloadsOf left).length + live.operands.payloads.length) right := by
      refine (placed_append.mp h.placed).2.2.congr fun other hother => ?_
      rw [hgets, if_neg (ne_of_mem_of_not_mem (mem_map_of_mem hother) hnot)]
    obtain ⟨moved, hmov, hplcd, hfree'', htrail'', hsame, hsome⟩ :=
      compact_spec hrightNodup hrt hfree' htrail'
    have hdrop : (state.allocationOrder.eraseIdx left.length).drop left.length =
        right.map Live.index := by
      rw [herase, map_append, ← length_map (f := Live.index), drop_left]
    have hman : (rangesOf left live).managed.len = live.operands.managed.length :=
      Nat.add_sub_cancel_left _ _
    have hscals : (rangesOf left live).scalars.len = live.operands.payloads.length :=
      Nat.add_sub_cancel_left _ _
    rw [if_neg htail, hdrop, hman, hscals, hmov, bind_some]
    refine ⟨_, rfl, h.without herase ?_ ?_ ?_ rfl ?_ ?_ ⟨_, hfree''⟩ htrail'', rfl, rfl⟩
    · show (rangesOf left live).managed.drain state.values = _
      rw [h.values, managedOf_split, managedOf_append]
      exact drain_middle rfl rfl
    · show (rangesOf left live).scalars.drain state.payloads = _
      rw [h.payloads, payloadsOf_split, payloadsOf_append]
      exact drain_middle rfl rfl
    · show (rangesOf left live).scalars.drain state.initialized = _
      rw [h.initialized, initializedOf_split, initializedOf_append]
      exact drain_middle hinit (by rw [hlive])
    · refine placed_append.mpr ⟨hleft.congr fun other hother => hsame _ fun hmem => ?_, hplcd⟩
      exact hdisj _ (mem_map_of_mem hother) _ (mem_cons_of_mem _ hmem) rfl
    · intro i hwin
      dsimp only at hwin
      rw [hsome, hgets] at hwin
      split at hwin
      · cases hwin
      · rename_i hne
        exact ⟨hne, hwin⟩

end ExecutionValues

/-! ## Allocation -/

/-- An argument, written into a new window from the banks of the source window. -/
def OperandWindow.transfer (source : Option (OperandWindow H)) (target : Location)
    (window : OperandWindow H) : ArgumentSource H → Option (OperandWindow H)
  | .value value => window.write target value
  | .window location =>
    source.bind fun source =>
      match location.operand.scalar.bind source.payload, target.operand.scalar with
      | some bits, some slot => window.writePayload slot bits
      | _, _ => (source.read location).bind (window.write target)

/-- The arguments, one after another. -/
def OperandWindow.transferAll (slotLayout : Option FrameLayout) (source : Option (OperandWindow H)) :
    List (Nat × ArgumentSource H) → OperandWindow H → Option (OperandWindow H)
  | [], window => some window
  | (slot, argument) :: rest, window => do
    let target ← destination slotLayout slot
    let written ← window.transfer source target argument
    transferAll slotLayout source rest written

namespace ExecutionValues

variable {state : ExecutionValues H} {lives left right : List (Live H)} {live : Live H}

theorem transfer_widths {source : Option (OperandWindow H)} {target : Location}
    {window written : OperandWindow H} {argument : ArgumentSource H}
    (h : window.transfer source target argument = some written) : SameWidths window written := by
  cases argument with
  | value value => exact write_widths h
  | window location =>
    obtain ⟨operands, -, h⟩ := bind_eq_some_iff.mp h
    split at h
    · exact writePayload_widths h
    · obtain ⟨value, -, hwrt⟩ := bind_eq_some_iff.mp h
      exact write_widths hwrt

/-- The source window of the arguments, among the windows on the left. -/
def SourceOf (left : List (Live H)) (ranges : Option WindowRanges)
    (operands : Option (OperandWindow H)) : Prop :=
  ranges = none ∧ operands = none ∨ ∃ before source after, left = before ++ source :: after ∧
    ranges = some (rangesOf before source) ∧ operands = some source.operands

theorem Banks.readRange (h : Banks state (left ++ live :: right)) (location : Location) :
    state.readRange (rangesOf left live) location = live.operands.read location := by
  unfold ExecutionValues.readRange
  rw [h.operands, bind_some]

theorem Banks.writeRange (h : Banks state (left ++ live :: right)) (location : Location)
    (value : Value H) : state.writeRange (rangesOf left live) location value =
      (live.operands.write location value).map (state.writeBack (rangesOf left live)) := by
  unfold ExecutionValues.writeRange
  dsimp only [bind_eq_bind]
  rw [h.operands, bind_some]
  cases live.operands.write location value <;> rfl

variable {source : Option WindowRanges}

theorem Banks.transfer (h : Banks state (left ++ [live]))
    {operands : Option (OperandWindow H)} (hsrc : SourceOf left source operands) (target : Location)
    (argument : ArgumentSource H) :
    state.transfer source (rangesOf left live) target argument =
      (live.operands.transfer operands target argument).map (state.writeBack (rangesOf left live)) := by
  cases argument with
  | value value => exact h.writeRange target value
  | window location =>
    rcases hsrc with ⟨rfl, rfl⟩ | ⟨before, found, after, rfl, rfl, rfl⟩
    · rfl
    · have hfnd : Banks state (before ++ found :: (after ++ [live])) := by
        rw [append_assoc, cons_append] at h
        exact h
      unfold ExecutionValues.transfer OperandWindow.transfer
      have hpay : state.payload (rangesOf before found) = found.operands.payload :=
        funext hfnd.payload
      dsimp only [bind_some]
      rw [hfnd.readRange, hpay]
      have hread : ((found.operands.read location).bind fun value =>
          state.writeRange (rangesOf (before ++ found :: after) live) target value) =
          ((found.operands.read location).bind (live.operands.write target)).map
            (state.writeBack (rangesOf (before ++ found :: after) live)) := by
        cases found.operands.read location with
        | none => rfl
        | some value => exact h.writeRange target value
      cases location.operand.scalar.bind found.operands.payload with
      | none => exact hread
      | some bits =>
        cases target.operand.scalar with
        | none => exact hread
        | some slot => exact h.writePayload slot bits

theorem rangesOf_same {operands : OperandWindow H} (hwids : SameWidths live.operands operands) :
    rangesOf left { live with operands := operands } = rangesOf left live := by
  unfold rangesOf rangesAt
  dsimp only
  rw [hwids.managed, hwids.payloads]

/-- The transfers of the storage are those of the new window; nothing but the banks changes. -/
theorem Banks.transferAll (slotLayout : Option FrameLayout)
    {operands : Option (OperandWindow H)} (hsrc : SourceOf left source operands) :
    ∀ (arguments : List (Nat × ArgumentSource H)) {state : ExecutionValues H} {live : Live H},
      Banks state (left ++ [live]) →
      (OperandWindow.transferAll slotLayout operands arguments live.operands = none ∧
        transferAll slotLayout source (rangesOf left live) arguments state = none) ∨
      ∃ final state', OperandWindow.transferAll slotLayout operands arguments live.operands = some final ∧
        transferAll slotLayout source (rangesOf left live) arguments state = some state' ∧
        SameWidths live.operands final ∧ Banks state' (left ++ [{ live with operands := final }]) ∧
        state' = { state with
          values := state'.values, payloads := state'.payloads, initialized := state'.initialized } := by
  intro arguments
  induction arguments with
  | nil =>
    intro state live h
    exact .inr ⟨live.operands, state, rfl, rfl, ⟨rfl, rfl, rfl⟩, h, rfl⟩
  | cons argument rest ih =>
    intro state live h
    obtain ⟨slot, argument⟩ := argument
    unfold OperandWindow.transferAll ExecutionValues.transferAll
    dsimp only [bind_eq_bind]
    cases htgt : destination slotLayout slot with
    | none => exact .inl ⟨rfl, rfl⟩
    | some target =>
      rw [bind_some, bind_some, h.transfer hsrc]
      cases hwrt : live.operands.transfer operands target argument with
      | none => exact .inl ⟨rfl, rfl⟩
      | some written =>
        have hwids := transfer_widths hwrt
        have hnext := h.writeBack hwids
        have hrest := ih hnext
        rw [rangesOf_same hwids] at hrest
        rw [bind_some, map_some, bind_some]
        rcases hrest with hnone | ⟨final, state', hfin, hall, hlat, hbanks, hstate⟩
        · exact .inl hnone
        · refine .inr ⟨final, state', hfin, hall, ?_, hbanks, hstate⟩
          exact ⟨hlat.managed.trans hwids.managed, hlat.payloads.trans hwids.payloads,
            hlat.initialized.trans hwids.initialized⟩

theorem Rep.grow (h : Rep state lives) (scalarCount managedCount index generation : Nat)
    (slotLayout : Option FrameLayout) :
    Banks (state.grow scalarCount managedCount)
      (lives ++ [⟨index, generation, slotLayout, .blank scalarCount managedCount⟩]) := by
  refine ⟨?_, ?_, ?_, fun live hlive => ?_⟩
  · show state.values ++ _ = _
    rw [h.values, managedOf_append]
    simp [managedOf, OperandWindow.blank]
  · show state.payloads ++ _ = _
    rw [h.payloads, payloadsOf_append]
    simp [payloadsOf, OperandWindow.blank]
  · show state.initialized ++ _ = _
    rw [h.initialized, initializedOf_append]
    simp [initializedOf, OperandWindow.blank]
  · rcases mem_append.mp hlive with hlive | hlive
    · exact h.even live hlive
    · rw [mem_singleton.mp hlive]
      simp [OperandWindow.blank]

theorem reserveAll_slot {memory : Nat → Bool}
    (h : state.reserveAll memory scalarCount managedCount = .ok ()) :
    state.windows.reserveSlot (memory 3) = true := by
  unfold reserveAll at h
  split at h
  · cases h
  · split at h
    · cases h
    · split at h
      · cases h
      · split at h
        · cases h
        · rename_i hslot
          simpa using hslot

/-- The window that is published holds its arguments, and is new. -/
theorem Rep.publish (h : Rep state lives) {memory : Bool} (hrsv : state.windows.reserveSlot memory = true)
    {slotLayout : Option FrameLayout}
    {operands : Option (OperandWindow H)} (hsrc : SourceOf lives source operands)
    (arguments : List (Nat × ArgumentSource H)) :
    (OperandWindow.transferAll slotLayout operands arguments (.blank scalarCount managedCount) = none ∧
      state.publish slotLayout scalarCount managedCount source arguments = none) ∨
    ∃ final state' index,
      OperandWindow.transferAll slotLayout operands arguments (.blank scalarCount managedCount) = some final ∧
      state.publish slotLayout scalarCount managedCount source arguments =
        some (⟨state.owner, index, state.nextGeneration + 1⟩, state') ∧
      Rep state' (lives ++ [⟨index, state.nextGeneration + 1, slotLayout, final⟩]) ∧
      state'.owner = state.owner ∧ state'.nextGeneration = state.nextGeneration + 1 := by
  obtain ⟨chain, hfree⟩ := h.free
  have hvals : state.values.length = (managedOf lives).length := by rw [h.values]
  have hpayloads : state.payloads.length = (payloadsOf lives).length := by rw [h.payloads]
  obtain ⟨index, inserted, chain', hins, hfree', htrail', hvac, hgets⟩ :=
    insert_spec hfree h.trailing hrsv ⟨state.nextGeneration + 1,
      ⟨⟨state.payloads.length, state.payloads.length + scalarCount⟩,
        ⟨state.values.length, state.values.length + managedCount⟩⟩, slotLayout⟩
  have hidx : index ∉ lives.map Live.index := by
    intro hmem
    obtain ⟨live, hlive, rfl⟩ := mem_map.mp hmem
    obtain ⟨left, right, rfl⟩ := append_of_mem hlive
    rw [h.get] at hvac
    cases hvac
  have hrngs : rangesOf lives
      ⟨index, state.nextGeneration + 1, slotLayout, .blank scalarCount managedCount⟩ =
      ⟨⟨state.payloads.length, state.payloads.length + scalarCount⟩,
        ⟨state.values.length, state.values.length + managedCount⟩⟩ := by
    unfold rangesOf rangesAt OperandWindow.blank
    rw [hpayloads, hvals, length_replicate, length_replicate]
  have htr := Banks.transferAll slotLayout hsrc arguments
    (h.grow scalarCount managedCount index (state.nextGeneration + 1) slotLayout)
  rw [hrngs] at htr
  unfold ExecutionValues.publish
  dsimp only [bind_eq_bind]
  rcases htr with ⟨hnone, hnone'⟩ | ⟨final, written, hfin, hall, hwids, hbanks, hstate⟩
  · rw [hnone']
    exact .inl ⟨hnone, rfl⟩
  · have hwins : written.windows = state.windows := by rw [hstate]; rfl
    have hord : written.allocationOrder = state.allocationOrder := by rw [hstate]; rfl
    have hgeneration : written.nextGeneration = state.nextGeneration + 1 := by rw [hstate]; rfl
    rw [hall, bind_some, hwins, hins, bind_some]
    refine .inr ⟨final, _, index, hfin, rfl, ⟨⟨hbanks.values, hbanks.payloads, hbanks.initialized,
      hbanks.even⟩, ?_, ?_, ?_, fun i window hget => ?_, fun live hlive => ?_, ?_, ⟨_, hfree'⟩,
      htrail'⟩, ?_, hgeneration⟩
    · show written.allocationOrder ++ [index] = _
      rw [hord, h.order, map_append]
      rfl
    · rw [map_append]
      exact List.Nodup.append h.nodup (nodup_singleton _) (disjoint_singleton.mpr hidx)
    · refine placed_append.mpr ⟨h.placed.congr fun live hlive => ?_, ?_, trivial⟩
      · rw [hgets, if_neg (ne_of_mem_of_not_mem (mem_map_of_mem hlive) hidx)]
      · rw [hgets, if_pos rfl]
        unfold windowAt rangesAt
        rw [Nat.zero_add, Nat.zero_add, hwids.managed, hwids.payloads, hpayloads, hvals]
        simp [OperandWindow.blank]
    · rw [map_append, mem_append]
      dsimp only at hget
      rw [hgets] at hget
      split at hget
      · rename_i heq
        exact .inr (by simp [heq])
      · exact .inl (h.only i window hget)
    · show live.generation ≤ written.nextGeneration
      rw [hgeneration]
      rcases mem_append.mp hlive with hlive | hlive
      · exact Nat.le_succ_of_le (h.generations live hlive)
      · rw [mem_singleton.mp hlive]
    · rw [map_append]
      refine pairwise_append.mpr ⟨h.sorted, pairwise_singleton _ _, fun older holder new hnew => ?_⟩
      obtain ⟨live, hlive, rfl⟩ := mem_map.mp holder
      rw [mem_singleton.mp hnew]
      exact Nat.lt_succ_of_le (h.generations live hlive)
    · show written.owner = state.owner
      rw [hstate]
      rfl

end ExecutionValues

end Kagari.Runtime
