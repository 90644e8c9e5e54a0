import Kagari.Lib.Linked
import Kagari.Runtime.Windows

/-!
# The free list of the window table

The vacant slots form one doubly linked list, each operation keeps it so, and none of them panics.
-/

namespace Kagari.Runtime

open Lib List Option

variable {α : Type}

/-- The links of all vacant slots. -/
def linksOf (slots : List (Slot α)) (index : Nat) : Option (Nat × Nat) := slots[index]?.bind Slot.links

/-- What each slot holds, links aside. -/
def contents (slots : List (Slot α)) : List (Option α) := slots.map Slot.window

/-- The vacant slots are those of a doubly linked list from the head. -/
structure FreeList (windows : Windows α) (chain : List Nat) : Prop where
  linked : Linked (linksOf windows.slots) noSlot windows.freeHead chain
  vacant : ∀ i, i ∈ chain ↔ (contents windows.slots)[i]? = some none
  bounded : windows.slots.length < noSlot

/-- The last slot is not vacant. -/
def NoTrailing (windows : Windows α) : Prop := (contents windows.slots).getLast? ≠ some none

theorem contents_getElem? (slots : List (Slot α)) (i : Nat) :
    (contents slots)[i]? = slots[i]?.map Slot.window := getElem?_map

theorem Windows.get_eq (windows : Windows α) (i : Nat) :
    windows.get i = (contents windows.slots)[i]?.join := by
  rw [contents_getElem?]
  unfold get
  cases windows.slots[i]? <;> rfl

variable {slots : List (Slot α)}

theorem linksOf_some {i previous next : Nat} :
    linksOf slots i = some (previous, next) ↔ slots[i]? = some (.vacant previous next) := by
  unfold linksOf
  cases hslot : slots[i]? with
  | none => simp
  | some slot => cases slot <;> simp [Slot.links]

/-- Writing a vacant slot moves its links and nothing else. -/
theorem linksOf_set {i previous next previous' next' : Nat}
    (h : slots[i]? = some (.vacant previous next)) :
    linksOf (slots.set i (.vacant previous' next')) =
        Function.update (linksOf slots) i (some (previous', next')) ∧
      contents (slots.set i (.vacant previous' next')) = contents slots := by
  obtain ⟨hi, -⟩ := List.getElem?_eq_some_iff.mp h
  constructor
  · funext j
    unfold linksOf
    by_cases hj : j = i
    · subst hj
      rw [Function.update_self, List.getElem?_set_self hi]
      rfl
    · rw [Function.update_of_ne hj, List.getElem?_set_ne (Ne.symm hj)]
  · unfold contents
    rw [List.map_set]
    refine List.ext_getElem? fun j => ?_
    rw [List.getElem?_set, List.length_map, if_pos hi, List.getElem?_map]
    split
    · rename_i heq
      rw [← heq, h]
      rfl
    · rfl

variable {i : Nat}

theorem contents_vacant :
    (contents slots)[i]? = some none ↔ ∃ previous next, linksOf slots i = some (previous, next) := by
  rw [contents_getElem?]
  unfold linksOf
  cases hslot : slots[i]? with
  | none => simp
  | some slot => cases slot <;> simp [Slot.window, Slot.links]

theorem setNext_eq (other : Nat)
    (h : i ≠ noSlot → (contents slots)[i]? = some none) :
    ∃ slots', setNext slots i other = some slots' ∧
      linksOf slots' = (if i = noSlot then linksOf slots else linkNext (linksOf slots) i other) ∧
      contents slots' = contents slots := by
  unfold setNext
  by_cases hnull : i = noSlot
  · rw [if_pos hnull, if_pos hnull]
    exact ⟨_, rfl, rfl, rfl⟩
  · rw [if_neg hnull, if_neg hnull]
    obtain ⟨previous, next, hlink⟩ := contents_vacant.mp (h hnull)
    have hslot := linksOf_some.mp hlink
    obtain ⟨hlnk, hcont⟩ := @linksOf_set _ _ _ _ _ previous other hslot
    rw [hslot]
    refine ⟨_, rfl, hlnk.trans ?_, hcont⟩
    unfold linkNext
    rw [hlink]
    rfl

theorem setPrevious_eq (other : Nat)
    (h : i ≠ noSlot → (contents slots)[i]? = some none) :
    ∃ slots', setPrevious slots i other = some slots' ∧
      linksOf slots' = (if i = noSlot then linksOf slots else linkPrevious (linksOf slots) i other) ∧
      contents slots' = contents slots := by
  unfold setPrevious
  by_cases hnull : i = noSlot
  · rw [if_pos hnull, if_pos hnull]
    exact ⟨_, rfl, rfl, rfl⟩
  · rw [if_neg hnull, if_neg hnull]
    obtain ⟨previous, next, hlink⟩ := contents_vacant.mp (h hnull)
    have hslot := linksOf_some.mp hlink
    obtain ⟨hlnk, hcont⟩ := @linksOf_set _ _ _ _ _ other next hslot
    rw [hslot]
    refine ⟨_, rfl, hlnk.trans ?_, hcont⟩
    unfold linkPrevious
    rw [hlink]
    rfl

theorem length_eq_of_contents {slots slots' : List (Slot α)} (h : contents slots' = contents slots) :
    slots'.length = slots.length := by
  have hlen := congrArg List.length h
  unfold contents at hlen
  rwa [length_map, length_map] at hlen

/-- A node of the list is taken out of it; its slot is still vacant. -/
theorem unlinkFree_spec {windows : Windows α} {chain : List Nat}
    (h : Linked (linksOf windows.slots) noSlot windows.freeHead chain) (hi : i ∈ chain) :
    ∃ unlinked, windows.unlinkFree i = some unlinked ∧
      Linked (linksOf unlinked.slots) noSlot unlinked.freeHead (chain.erase i) ∧
      contents unlinked.slots = contents windows.slots := by
  obtain ⟨final, hseg⟩ := h.segment
  have hvac : ∀ j ∈ chain, (contents windows.slots)[j]? = some none := fun j hj =>
    contents_vacant.mpr (hseg.links_of_mem hj)
  obtain ⟨before, after, hlnk⟩ := hseg.links_of_mem hi
  obtain ⟨hunlink, hbef, haft⟩ := h.unlink hi hlnk
  obtain ⟨slots₁, heq₁, hlnk₁, hcont₁⟩ := setNext_eq after fun hne => hvac before (hbef hne)
  obtain ⟨slots₂, heq₂, hlnk₂, hcont₂⟩ := @setPrevious_eq _ slots₁ after before fun hne =>
    hcont₁ ▸ hvac after (haft hne)
  unfold Windows.unlinkFree
  rw [linksOf_some.mp hlnk]
  dsimp only [bind_eq_bind]
  rw [heq₁, bind_some, heq₂, bind_some]
  refine ⟨_, rfl, ?_, hcont₂.trans hcont₁⟩
  dsimp only
  rw [hlnk₂, hlnk₁]
  exact hunlink

variable {windows : Windows α} {chain : List Nat}

theorem linksOf_take {n i : Nat} (hi : i < n) :
    linksOf (slots.take n) i = linksOf slots i := by
  unfold linksOf
  rw [getElem?_take_of_lt hi]

theorem linksOf_set_ne {i j : Nat} {slot : Slot α} (hj : j ≠ i) :
    linksOf (slots.set i slot) j = linksOf slots j := by
  unfold linksOf
  rw [getElem?_set_ne (Ne.symm hj)]

theorem contents_set (slots : List (Slot α)) (i : Nat) (slot : Slot α) :
    contents (slots.set i slot) = (contents slots).set i slot.window := map_set

theorem length_contents (slots : List (Slot α)) : (contents slots).length = slots.length :=
  length_map _

theorem FreeList.lt (h : FreeList windows chain) (hi : i ∈ chain) :
    i < windows.slots.length := by
  obtain ⟨hlt, -⟩ := List.getElem?_eq_some_iff.mp ((h.vacant i).mp hi)
  rwa [length_contents] at hlt

theorem FreeList.get_none (h : FreeList windows chain) (hi : i ∈ chain) :
    windows.get i = none := by
  rw [Windows.get_eq, (h.vacant i).mp hi]
  rfl

/-- A window is put into the first vacant slot, or at the end. -/
theorem insert_spec {memory : Bool} (h : FreeList windows chain) (htrail : NoTrailing windows)
    (hrsv : windows.reserveSlot memory = true) (window : α) :
    ∃ index inserted chain', windows.insert window = some (index, inserted) ∧
      FreeList inserted chain' ∧ NoTrailing inserted ∧ windows.get index = none ∧
      ∀ j, inserted.get j = if j = index then some window else windows.get j := by
  unfold Windows.insert
  unfold Windows.reserveSlot at hrsv
  by_cases hhead : windows.freeHead = noSlot
  · rw [if_pos hhead] at hrsv ⊢
    unfold tryReserve at hrsv
    have hlen := of_decide_eq_true ((Bool.and_eq_true _ _).mp hrsv).2
    obtain rfl := h.linked.head_null.mp hhead
    have hcont : contents (windows.slots ++ [.occupied window]) =
        contents windows.slots ++ [some window] := map_append
    refine ⟨_, _, [], rfl, ⟨⟨⟨noSlot, hhead, rfl⟩, nodup_nil, not_mem_nil⟩, fun i => ?_, ?_⟩,
      ?_, ?_, fun j => ?_⟩
    · rw [hcont, getElem?_append]
      split
      · exact h.vacant i
      · simp [getElem?_singleton]
    · show (windows.slots ++ [_]).length < noSlot
      rw [length_append]
      unfold noSlot
      simp only [length_singleton]
      omega
    · unfold NoTrailing
      rw [hcont, getLast?_concat]
      exact fun heq => nomatch heq
    · unfold Windows.get
      rw [getElem?_eq_none (Nat.le_refl _)]
      rfl
    · unfold Windows.get
      rw [getElem?_append]
      split
      · rename_i hj
        rw [if_neg (Nat.ne_of_lt hj)]
      · rename_i hj
        by_cases heq : j = windows.slots.length
        · rw [if_pos heq, heq]
          simp [Slot.window]
        · rw [if_neg heq, getElem?_eq_none (Nat.le_of_not_lt hj), getElem?_eq_none]
          simp only [length_singleton]
          omega
  · rw [if_neg hhead]
    have hmem := h.linked.head_mem hhead
    obtain ⟨unlinked, heq, hlinked, hcont⟩ := unlinkFree_spec h.linked hmem
    have hset : contents (unlinked.slots.set windows.freeHead (.occupied window)) =
        (contents windows.slots).set windows.freeHead (some window) := by
      rw [contents_set, hcont]
      rfl
    have hlt : windows.freeHead < (contents windows.slots).length := by
      rw [length_contents]
      exact h.lt hmem
    dsimp only [bind_eq_bind]
    rw [heq, bind_some]
    refine ⟨_, _, chain.erase windows.freeHead, rfl, ⟨hlinked.congr fun j hj => ?_, fun j => ?_, ?_⟩, ?_,
      h.get_none hmem, fun j => ?_⟩
    · exact linksOf_set_ne ((List.Nodup.mem_erase_iff h.linked.nodup).mp hj).1
    · rw [hset, List.Nodup.mem_erase_iff h.linked.nodup, getElem?_set, if_pos hlt]
      by_cases hj : windows.freeHead = j
      · simp [hj]
      · rw [if_neg hj, h.vacant j]
        exact and_iff_right (Ne.symm hj)
    · show (unlinked.slots.set _ _).length < noSlot
      rw [length_set, length_eq_of_contents hcont]
      exact h.bounded
    · unfold NoTrailing at htrail ⊢
      rw [hset, getLast?_eq_getElem?, getElem?_set, if_pos hlt, length_set]
      split
      · exact fun hnone => nomatch hnone
      · rwa [← getLast?_eq_getElem?]
    · rw [Windows.get_eq, hset, getElem?_set, if_pos hlt]
      by_cases hj : windows.freeHead = j
      · rw [if_pos hj, if_pos hj.symm]
        rfl
      · rw [if_neg hj, if_neg (Ne.symm hj), Windows.get_eq]

/-- The end of the table is cut off at a slot that is in no list. -/
theorem take_spec {n : Nat} (h : FreeList windows chain) {left : List Nat} {freeHead : Nat}
    (hlinked : Linked (linksOf slots) noSlot freeHead left)
    (hcont : contents slots = contents windows.slots)
    (hleft : ∀ j, j ∈ left ↔ j ∈ chain ∧ j < n) :
    FreeList ⟨slots.take n, freeHead⟩ left ∧
      ∀ j, (⟨slots.take n, freeHead⟩ : Windows α).get j = if j < n then windows.get j else none := by
  have htake : contents (slots.take n) = (contents windows.slots).take n := by
    rw [← hcont]
    exact map_take
  refine ⟨⟨hlinked.congr fun j hj => linksOf_take ((hleft j).mp hj).2, fun j => ?_, ?_⟩, fun j => ?_⟩
  · rw [hleft, htake, getElem?_take, h.vacant]
    by_cases hj : j < n
    · rw [if_pos hj]
      exact and_iff_left hj
    · rw [if_neg hj]
      simp [hj]
  · show (slots.take n).length < noSlot
    have hlen := length_eq_of_contents hcont
    have hbnd := h.bounded
    rw [length_take]
    omega
  · rw [Windows.get_eq, htake, getElem?_take, Windows.get_eq]
    split <;> rfl

/-- Vacant slots go from the end, with their links. -/
theorem dropTrailing_spec (fuel : Nat) : ∀ {windows : Windows α} {chain : List Nat},
    FreeList windows chain → windows.slots.length ≤ fuel →
    ∃ left chain', Windows.dropTrailing fuel windows = some left ∧ FreeList left chain' ∧
      NoTrailing left ∧ ∀ j, left.get j = windows.get j := by
  induction fuel with
  | zero =>
    intro windows chain h hfuel
    have hnil : windows.slots = [] := length_eq_zero_iff.mp (Nat.le_zero.mp hfuel)
    refine ⟨windows, chain, rfl, h, ?_, fun _ => rfl⟩
    unfold NoTrailing
    rw [hnil]
    exact fun hnone => nomatch hnone
  | succ fuel ih =>
    intro windows chain h hfuel
    unfold Windows.dropTrailing
    have hlast : (contents windows.slots).getLast? = windows.slots.getLast?.map Slot.window :=
      getLast?_map
    cases hslot : windows.slots.getLast? with
    | none =>
      refine ⟨windows, chain, rfl, h, ?_, fun _ => rfl⟩
      unfold NoTrailing
      rw [hlast, hslot]
      exact fun hnone => nomatch hnone
    | some slot =>
      rw [hslot] at hlast
      cases slot with
      | occupied window =>
        refine ⟨windows, chain, rfl, h, ?_, fun _ => rfl⟩
        unfold NoTrailing
        rw [hlast]
        exact fun hnone => nomatch hnone
      | vacant previous next =>
        have hmem : windows.slots.length - 1 ∈ chain := by
          rw [h.vacant, ← length_contents, ← getLast?_eq_getElem?]
          exact hlast
        have hlt := h.lt hmem
        obtain ⟨unlinked, heq, hlinked, hcont⟩ := unlinkFree_spec h.linked hmem
        obtain ⟨hfree, hget⟩ := take_spec (n := windows.slots.length - 1) h hlinked hcont fun j => by
          rw [List.Nodup.mem_erase_iff h.linked.nodup]
          constructor
          · intro hj
            have := h.lt hj.2
            exact ⟨hj.2, by omega⟩
          · exact fun hj => ⟨Nat.ne_of_lt hj.2, hj.1⟩
        obtain ⟨left, chain', hdrop, hleft, htrail, hgets⟩ := ih hfree (by
          rw [length_take]
          omega)
        dsimp only [bind_eq_bind]
        rw [heq, bind_some]
        refine ⟨left, chain', hdrop, hleft, htrail, fun j => ?_⟩
        rw [hgets, hget]
        split
        · rfl
        · rename_i hj
          by_cases hend : j = windows.slots.length - 1
          · rw [hend, h.get_none hmem]
          · unfold Windows.get
            rw [getElem?_eq_none (by omega)]
            rfl

variable {window : α} {index : Nat}

theorem FreeList.not_mem (h : FreeList windows chain)
    (hi : windows.get i = some window) : i ∉ chain := by
  intro hmem
  rw [h.get_none hmem] at hi
  cases hi

theorem get_lt (h : windows.get i = some window) :
    i < windows.slots.length := by
  obtain ⟨slot, hslot, -⟩ := bind_eq_some_iff.mp h
  exact (List.getElem?_eq_some_iff.mp hslot).1

/-- The slot of a window becomes vacant. -/
theorem retire_spec (h : FreeList windows chain)
    (htrail : NoTrailing windows) (hget : windows.get index = some window) :
    ∃ retired chain', windows.retire index = some retired ∧ FreeList retired chain' ∧
      NoTrailing retired ∧ ∀ j, retired.get j = if j = index then none else windows.get j := by
  have hlt := get_lt hget
  have hnot := h.not_mem hget
  unfold Windows.retire
  by_cases hend : index + 1 = windows.slots.length
  · rw [if_pos hend]
    obtain ⟨hfree, htake⟩ := take_spec (n := index) h h.linked rfl fun j => by
      refine (and_iff_left_of_imp fun hj => ?_).symm
      have hne : j ≠ index := ne_of_mem_of_not_mem hj hnot
      have := h.lt hj
      omega
    obtain ⟨left, chain', hdrop, hleft, hno, hgets⟩ := dropTrailing_spec windows.slots.length hfree (by
      rw [length_take]
      omega)
    refine ⟨left, chain', hdrop, hleft, hno, fun j => ?_⟩
    rw [hgets, htake]
    by_cases hj : j < index
    · rw [if_pos hj, if_neg (Nat.ne_of_lt hj)]
    · rw [if_neg hj]
      split
      · rfl
      · unfold Windows.get
        rw [getElem?_eq_none (by omega)]
        rfl
  · rw [if_neg hend]
    have hnull : index ≠ noSlot := Nat.ne_of_lt (Nat.lt_trans hlt h.bounded)
    -- the slot is written first, then the link back of the old head
    have hmrk : contents (windows.slots.set index (.vacant noSlot windows.freeHead)) =
        (contents windows.slots).set index none := contents_set _ _ _
    have hlinked : Linked (linksOf (windows.slots.set index (.vacant noSlot windows.freeHead))) noSlot
        windows.freeHead chain :=
      h.linked.congr fun j hj => linksOf_set_ne (ne_of_mem_of_not_mem hj hnot)
    have hself : linksOf (windows.slots.set index (.vacant noSlot windows.freeHead)) index =
        some (noSlot, windows.freeHead) := by
      unfold linksOf
      rw [getElem?_set_self hlt]
      rfl
    have hclt : index < (contents windows.slots).length := by rwa [length_contents]
    obtain ⟨slots, heq, hlnk, hcont⟩ := setPrevious_eq index fun hne => by
      have hmem := h.linked.head_mem hne
      rw [hmrk, getElem?_set_ne (ne_of_mem_of_not_mem hmem hnot).symm]
      exact (h.vacant _).mp hmem
    dsimp only [bind_eq_bind]
    rw [heq, bind_some]
    have hset : contents slots = (contents windows.slots).set index none := hcont.trans hmrk
    refine ⟨_, index :: chain, rfl, ⟨?_, fun j => ?_, ?_⟩, ?_, fun j => ?_⟩
    · show Linked (linksOf slots) noSlot index _
      rw [hlnk]
      exact hlinked.push hnot hnull hself
    · rw [hset, getElem?_set, if_pos hclt, mem_cons]
      by_cases hj : index = j
      · simp [hj]
      · rw [if_neg hj, h.vacant j]
        exact or_iff_right (Ne.symm hj)
    · show slots.length < noSlot
      have hlen := congrArg List.length hset
      rw [length_set, length_contents, length_contents] at hlen
      rw [hlen]
      exact h.bounded
    · unfold NoTrailing at htrail ⊢
      rw [hset, getLast?_eq_getElem?, length_set, length_contents, getElem?_set_ne (by omega)]
      rwa [getLast?_eq_getElem?, length_contents] at htrail
    · rw [Windows.get_eq, hset, getElem?_set, if_pos hclt]
      by_cases hj : index = j
      · rw [if_pos hj, if_pos hj.symm]
        rfl
      · rw [if_neg hj, if_neg (Ne.symm hj), Windows.get_eq]

/-- A window is changed in its place. -/
theorem update_spec (h : FreeList windows chain)
    (htrail : NoTrailing windows) (hget : windows.get index = some window) (f : α → α) :
    ∃ updated, windows.update index f = some updated ∧ FreeList updated chain ∧ NoTrailing updated ∧
      ∀ j, updated.get j = if j = index then some (f window) else windows.get j := by
  have hlt := get_lt hget
  have hclt : index < (contents windows.slots).length := by rwa [length_contents]
  obtain ⟨slot, hslot, hwin⟩ := bind_eq_some_iff.mp hget
  cases slot with
  | vacant previous next => cases hwin
  | occupied found =>
    obtain rfl := some.inj hwin
    unfold Windows.update
    rw [hslot]
    have hset : contents (windows.slots.set index (.occupied (f found))) =
        (contents windows.slots).set index (some (f found)) := contents_set _ _ _
    refine ⟨_, rfl, ⟨?_, fun j => ?_, ?_⟩, ?_, fun j => ?_⟩
    · exact h.linked.congr fun j hj => linksOf_set_ne (ne_of_mem_of_not_mem hj (h.not_mem hget))
    · rw [hset, getElem?_set, if_pos hclt]
      by_cases hj : index = j
      · have hnot := h.not_mem hget
        simp [← hj, hnot]
      · rw [if_neg hj]
        exact h.vacant j
    · show (windows.slots.set _ _).length < noSlot
      rw [length_set]
      exact h.bounded
    · unfold NoTrailing at htrail ⊢
      rw [hset, getLast?_eq_getElem?, getElem?_set, if_pos hclt, length_set]
      split
      · exact fun hnone => nomatch hnone
      · rwa [← getLast?_eq_getElem?]
    · rw [Windows.get_eq, hset, getElem?_set, if_pos hclt]
      by_cases hj : index = j
      · rw [if_pos hj, if_pos hj.symm]
        rfl
      · rw [if_neg hj, if_neg (Ne.symm hj), Windows.get_eq]

end Kagari.Runtime
