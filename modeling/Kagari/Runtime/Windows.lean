import Mathlib.Algebra.Ring.Nat

/-!
# The table of execution windows

`kagari-runtime/src/frame/values/windows.rs`: a slot holds a window or is vacant, and the vacant slots
are linked through themselves, in both directions, from `free_head`. A vacant slot at the end of the
table is dropped.

The table is over any type of windows. `none` is a panic (`unreachable!`); `FreeList` says why there is
none.
-/

namespace Kagari.Runtime

/-- `NO_SLOT`, `usize::MAX`. -/
def noSlot : Nat := 2 ^ 64 - 1

inductive Slot (α : Type) where
  | occupied (window : α)
  | vacant (previous next : Nat)

structure Windows (α : Type) where
  slots : List (Slot α)
  freeHead : Nat

/-- `Vec::try_reserve`: no vector is longer than `isize::MAX`, and there may be less memory. -/
def tryReserve (memory : Bool) (length additional : Nat) : Bool :=
  memory && decide (length + additional < 2 ^ 63)

section Table

variable {α : Type}

def Slot.window : Slot α → Option α
  | .occupied window => some window
  | .vacant _ _ => none

/-- The links of a vacant slot. -/
def Slot.links : Slot α → Option (Nat × Nat)
  | .occupied _ => none
  | .vacant previous next => some (previous, next)

/-- Write the link forward of a vacant slot, if there is one. -/
def setNext (slots : List (Slot α)) (index next : Nat) : Option (List (Slot α)) :=
  if index = noSlot then some slots
  else
    match slots[index]? with
    | some (.vacant previous _) => some (slots.set index (.vacant previous next))
    | _ => none

/-- Write the link back of a vacant slot, if there is one. -/
def setPrevious (slots : List (Slot α)) (index previous : Nat) : Option (List (Slot α)) :=
  if index = noSlot then some slots
  else
    match slots[index]? with
    | some (.vacant _ next) => some (slots.set index (.vacant previous next))
    | _ => none

namespace Windows

def empty : Windows α := ⟨[], noSlot⟩

variable (windows : Windows α)

def get (index : Nat) : Option α := windows.slots[index]?.bind Slot.window

def reserveSlot (memory : Bool) : Bool :=
  if windows.freeHead = noSlot then tryReserve memory windows.slots.length 1 else true

/-- `unlink_free`. -/
def unlinkFree (index : Nat) : Option (Windows α) :=
  match windows.slots[index]? with
  | some (.vacant previous next) => do
    let slots ← setNext windows.slots previous next
    let slots ← setPrevious slots next previous
    some ⟨slots, if previous = noSlot then next else windows.freeHead⟩
  | _ => none

def insert (window : α) : Option (Nat × Windows α) :=
  if windows.freeHead = noSlot then
    some (windows.slots.length, { windows with slots := windows.slots ++ [.occupied window] })
  else do
    let unlinked ← windows.unlinkFree windows.freeHead
    some (windows.freeHead,
      { unlinked with slots := unlinked.slots.set windows.freeHead (.occupied window) })

/-- The loop of `retire` that drops vacant slots from the end; the table gets shorter each time. -/
def dropTrailing : Nat → Windows α → Option (Windows α)
  | 0, windows => some windows
  | fuel + 1, windows =>
    match windows.slots.getLast? with
    | some (.vacant _ _) => do
      let last := windows.slots.length - 1
      let unlinked ← windows.unlinkFree last
      dropTrailing fuel { unlinked with slots := unlinked.slots.take last }
    | _ => some windows

def retire (index : Nat) : Option (Windows α) :=
  if index + 1 = windows.slots.length then
    dropTrailing windows.slots.length { windows with slots := windows.slots.take index }
  else do
    let slots ← setPrevious (windows.slots.set index (.vacant noSlot windows.freeHead))
      windows.freeHead index
    some ⟨slots, index⟩

/-- `get_mut`, with what is written. -/
def update (index : Nat) (f : α → α) : Option (Windows α) :=
  match windows.slots[index]? with
  | some (.occupied window) => some { windows with slots := windows.slots.set index (.occupied (f window)) }
  | _ => none

end Windows

end Table

end Kagari.Runtime
