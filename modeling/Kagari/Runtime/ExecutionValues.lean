import Kagari.Runtime.Operands
import Kagari.Runtime.Windows

/-!
# Execution windows

`kagari-runtime/src/frame/values.rs`: all active frames keep their values in two banks, each window a
range of both. A window is named by its owner, its slot in the table and a generation. Releasing a
window compacts the banks, so the ranges of later windows move.

The metadata of a window (program, environment, invocation, native application) is left out: no
function here reads it. `memory` answers the reservations of `allocate` in their order. `none` is a
panic (`expect`, `unreachable!`).
-/

namespace Kagari.Runtime

/-- A range of indices, `start..stop`. -/
structure Extent where
  start : Nat
  stop : Nat
deriving DecidableEq

namespace Extent

variable {α : Type} (extent : Extent)

def len : Nat := extent.stop - extent.start

def slice (items : List α) : Option (List α) :=
  if extent.start ≤ extent.stop ∧ extent.stop ≤ items.length then
    some ((items.drop extent.start).take extent.len)
  else none

/-- The items with those of the range replaced. -/
def splice (items replaced : List α) : List α :=
  items.take extent.start ++ replaced ++ items.drop extent.stop

/-- `Vec::drain`. -/
def drain (items : List α) : List α := items.take extent.start ++ items.drop extent.stop

def shiftDown (distance : Nat) : Extent := ⟨extent.start - distance, extent.stop - distance⟩

end Extent

structure FrameSlots where
  owner : Nat
  index : Nat
  generation : Nat
deriving DecidableEq

structure WindowRanges where
  scalars : Extent
  managed : Extent
deriving DecidableEq

structure FrameLayout where
  locations : List Location
  scalarCount : Nat
  managedCount : Nat
deriving DecidableEq

structure Window where
  generation : Nat
  ranges : WindowRanges
  slotLayout : Option FrameLayout
deriving DecidableEq

inductive ArgumentSource (H : Type) where
  | value (value : Value H)
  | window (location : Location)

inductive ExplicitArguments (H : Type) where
  | values (values : List (Value H))
  | window (slots : FrameSlots) (locations : List Location)

/-- `FrameArguments`: captured values, then the explicit ones. -/
structure FrameArguments (H : Type) where
  prefixed : List (Value H)
  explicit : ExplicitArguments H

namespace FrameArguments

variable {H : Type} (arguments : FrameArguments H)

def window : Option FrameSlots :=
  match arguments.explicit with
  | .values _ => none
  | .window slots _ => some slots

def sources : List (ArgumentSource H) :=
  arguments.prefixed.map .value ++
    match arguments.explicit with
    | .values values => values.map .value
    | .window _ locations => locations.map .window

end FrameArguments

inductive AllocateError where
  | argumentWindow
  | layoutSize
  | invalidArgumentWindow
  | invalidArgument
  | resourceLimit (resource : String)
deriving DecidableEq

structure ExecutionValues (H : Type) where
  owner : Nat
  nextGeneration : Nat
  values : List (Value H)
  payloads : List (BitVec 64)
  initialized : List Bool
  windows : Windows Window
  allocationOrder : List Nat

/-- The location of a slot in a window without a layout. -/
def genericLocation (index : Nat) : Location := ⟨.new index true, .generic, none, false⟩

/-- `destination`. -/
def destination (slotLayout : Option FrameLayout) (index : Nat) : Option Location :=
  match slotLayout with
  | none => some (genericLocation index)
  | some layout => layout.locations[index]?

/-- `Window::location`. -/
def Window.location (window : Window) (logical : Nat) : Option Location :=
  match window.slotLayout with
  | some layout => layout.locations[logical]?
  | none => if logical < window.ranges.managed.len then some (genericLocation logical) else none

/-- `Iterator::rposition` of one element. -/
def rposition (items : List Nat) (item : Nat) : Option Nat :=
  (items.reverse.idxOf? item).map fun i => items.length - 1 - i

namespace ExecutionValues

variable {H : Type}

/-- `default`: the owner is unique to the storage. -/
def empty (owner : Nat) : ExecutionValues H := ⟨owner, 0, [], [], [], .empty, []⟩

variable (state : ExecutionValues H)

def window (slots : FrameSlots) : Option Window :=
  if slots.owner ≠ state.owner then none
  else (state.windows.get slots.index).filter fun window => window.generation = slots.generation

def ranges (slots : FrameSlots) : Option WindowRanges := (state.window slots).map Window.ranges

/-! ## Reads and writes -/

/-- The slices of a window, as all reads and writes take them. -/
def operands (ranges : WindowRanges) : Option (OperandWindow H) := do
  let managed ← ranges.managed.slice state.values
  let payloads ← ranges.scalars.slice state.payloads
  let initialized ← ranges.scalars.slice state.initialized
  some ⟨managed, payloads, initialized⟩

/-- The banks after a write through the slices. -/
def writeBack (ranges : WindowRanges) (written : OperandWindow H) : ExecutionValues H :=
  { state with
    values := ranges.managed.splice state.values written.managed
    payloads := ranges.scalars.splice state.payloads written.payloads
    initialized := ranges.scalars.splice state.initialized written.initialized }

/-- `with_range`. -/
def readRange (ranges : WindowRanges) (location : Location) : Option (Value H) :=
  (state.operands ranges).bind fun operands => operands.read location

def writeRange (ranges : WindowRanges) (location : Location) (value : Value H) :
    Option (ExecutionValues H) := do
  let operands ← state.operands ranges
  let written ← operands.write location value
  some (state.writeBack ranges written)

/-- `with_location`. -/
def readLocation (slots : FrameSlots) (location : Location) : Option (Value H) :=
  (state.ranges slots).bind fun ranges => state.readRange ranges location

/-- `with_value`. -/
def readLogical (slots : FrameSlots) (logical : Nat) : Option (Value H) := do
  let window ← state.window slots
  let location ← window.location logical
  state.readLocation slots location

def setLocation (slots : FrameSlots) (location : Location) (value : Value H) :
    Option (ExecutionValues H) :=
  (state.ranges slots).bind fun ranges => state.writeRange ranges location value

def set (slots : FrameSlots) (logical : Nat) (value : Value H) : Option (ExecutionValues H) := do
  let window ← state.window slots
  let location ← window.location logical
  state.setLocation slots location value

/-- `payload`: a bank index, under the mark of the slot. -/
def payload (ranges : WindowRanges) (slot : Nat) : Option (BitVec 64) :=
  if ranges.scalars.len ≤ slot then none
  else
    match state.initialized[ranges.scalars.start + slot]? with
    | some true => state.payloads[ranges.scalars.start + slot]?
    | _ => none

def writePayload (ranges : WindowRanges) (slot : Nat) (bits : BitVec 64) :
    Option (ExecutionValues H) :=
  if ranges.scalars.len ≤ slot then none
  else if ranges.scalars.start + slot < state.payloads.length ∧
      ranges.scalars.start + slot < state.initialized.length then
    some { state with
      payloads := state.payloads.set (ranges.scalars.start + slot) bits
      initialized := state.initialized.set (ranges.scalars.start + slot) true }
  else none

def scalarLocation (slots : FrameSlots) (location : Location) : Option (ValueType × BitVec 64) := do
  let window ← state.window slots
  let slot ← location.operand.scalar
  let bits ← state.payload window.ranges slot
  some (location.representation, bits)

def setScalarLocation (slots : FrameSlots) (location : Location) (representation : ValueType)
    (bits : BitVec 64) : Option (ExecutionValues H) :=
  match state.window slots with
  | none => none
  | some window =>
    if location.operand.managed then
      (decode representation bits).bind fun value => state.setLocation slots location value
    else if !location.admitsPayload representation bits then none
    else location.operand.scalar.bind fun slot => state.writePayload window.ranges slot bits

def retainManaged (slots : FrameSlots) (retained : List (BitVec 64)) : Option (ExecutionValues H) := do
  let ranges ← state.ranges slots
  let operands ← state.operands ranges
  let kept ← operands.retain retained
  some (state.writeBack ranges kept)

/-! ## Allocation -/

def admitsTransfer (source : WindowRanges) (location target : Location) : Bool :=
  match location.operand.scalar.bind (state.payload source), target.operand.managed with
  | some bits, false => target.admitsPayload location.representation bits
  | _, _ => (state.readRange source location).any fun value => target.admits value

section Allocate

variable (slotLayout : Option FrameLayout) (scalarCount managedCount : Nat)
  (source : Option WindowRanges)

/-- The check of one argument. -/
def admitsArgument (target : Location) : ArgumentSource H → Option Bool
  | .value value => some (slotLayout.isNone || target.admits value)
  | .window location => source.map fun ranges => state.admitsTransfer ranges location target

/-- The loop that rejects an invalid argument before anything grows. -/
def admitsArguments : List (Nat × ArgumentSource H) → Option Bool
  | [] => some true
  | (slot, argument) :: rest => do
    let target ← destination slotLayout slot
    let admitted ← state.admitsArgument slotLayout source target argument
    let capacity := if target.operand.managed then managedCount else scalarCount
    if capacity ≤ target.operand.index ∨ !admitted then some false else admitsArguments rest

/-- One argument is written into the new window. -/
def transfer (ranges : WindowRanges) (target : Location) :
    ArgumentSource H → Option (ExecutionValues H)
  | .value value => state.writeRange ranges target value
  | .window location =>
    source.bind fun source =>
      match location.operand.scalar.bind (state.payload source), target.operand.scalar with
      | some bits, some slot => state.writePayload ranges slot bits
      | _, _ => (state.readRange source location).bind fun value => state.writeRange ranges target value

end Allocate

def transferAll (slotLayout : Option FrameLayout) (source : Option WindowRanges)
    (ranges : WindowRanges) : List (Nat × ArgumentSource H) → ExecutionValues H → Option (ExecutionValues H)
  | [], state => some state
  | (slot, argument) :: rest, state => do
    let target ← destination slotLayout slot
    let written ← state.transfer source ranges target argument
    transferAll slotLayout source ranges rest written

/-- The widths of the two banks. -/
def bankCounts (count : Nat) : Option FrameLayout → Option (Nat × Nat)
  | some layout =>
    if layout.locations.length = count then some (layout.scalarCount, layout.managedCount) else none
  | none => some (0, count)

/-- The reservations, in their order. -/
def reserveAll (memory : Nat → Bool) (scalarCount managedCount : Nat) : Except AllocateError Unit :=
  if !tryReserve (memory 0) state.values.length managedCount then
    .error (.resourceLimit "managed execution stack")
  else if !tryReserve (memory 1) state.payloads.length scalarCount then
    .error (.resourceLimit "scalar execution stack")
  else if !tryReserve (memory 2) state.initialized.length scalarCount then
    .error (.resourceLimit "execution initialization stack")
  else if !state.windows.reserveSlot (memory 3) then
    .error (.resourceLimit "execution frame windows")
  else if !tryReserve (memory 4) state.allocationOrder.length 1 then
    .error (.resourceLimit "execution frame order")
  else .ok ()

/-- The banks, grown by a blank window. -/
def grow (scalarCount managedCount : Nat) : ExecutionValues H :=
  { state with
    values := state.values ++ List.replicate managedCount .unit
    payloads := state.payloads ++ List.replicate scalarCount 0
    initialized := state.initialized ++ List.replicate scalarCount false
    nextGeneration := state.nextGeneration + 1 }

/-- The source window of the arguments: no window, or one that must be live. -/
def sourceRanges (arguments : FrameArguments H) : Except AllocateError (Option WindowRanges) :=
  match arguments.window with
  | none => .ok none
  | some slots =>
    match state.ranges slots with
    | some ranges => .ok (some ranges)
    | none => .error .invalidArgumentWindow

/-- After all checks: grow, write the arguments, publish the window. -/
def publish (slotLayout : Option FrameLayout) (scalarCount managedCount : Nat)
    (source : Option WindowRanges) (arguments : List (Nat × ArgumentSource H)) :
    Option (FrameSlots × ExecutionValues H) := do
  let ranges : WindowRanges := ⟨⟨state.payloads.length, state.payloads.length + scalarCount⟩,
    ⟨state.values.length, state.values.length + managedCount⟩⟩
  let written ← transferAll slotLayout source ranges arguments (state.grow scalarCount managedCount)
  let (index, windows) ← written.windows.insert ⟨state.nextGeneration + 1, ranges, slotLayout⟩
  some (⟨state.owner, index, state.nextGeneration + 1⟩,
    { written with windows, allocationOrder := written.allocationOrder ++ [index] })

def allocate (memory : Nat → Bool) (count : Nat) (parameterSlots : List Nat)
    (arguments : FrameArguments H) (slotLayout : Option FrameLayout) :
    Option (Except AllocateError FrameSlots × ExecutionValues H) :=
  if parameterSlots.length ≠ arguments.sources.length ∨ parameterSlots.any (fun slot => count ≤ slot) then
    some (.error .argumentWindow, state)
  else
    match bankCounts count slotLayout with
    | none => some (.error .layoutSize, state)
    | some (scalarCount, managedCount) =>
      match state.sourceRanges arguments with
      | .error error => some (.error error, state)
      | .ok source => do
        let transfers := parameterSlots.zip arguments.sources
        let admitted ← state.admitsArguments slotLayout scalarCount managedCount source transfers
        if !admitted then some (.error .invalidArgument, state)
        else if 2 ^ 64 ≤ state.nextGeneration + 1 then
          some (.error (.resourceLimit "frame window generations"), state)
        else
          match state.reserveAll memory scalarCount managedCount with
          | .error error => some (.error error, state)
          | .ok () => do
            let (slots, published) ← state.publish slotLayout scalarCount managedCount source transfers
            some (.ok slots, published)

/-! ## Release -/

/-- The ranges of a window after another, of the given widths, has gone before it. -/
def moveDown (managed scalars : Nat) (window : Window) : Window :=
  { window with ranges := ⟨window.ranges.scalars.shiftDown scalars, window.ranges.managed.shiftDown managed⟩ }

def moveAll (managed scalars : Nat) : List Nat → Windows Window → Option (Windows Window)
  | [], windows => some windows
  | index :: rest, windows => do
    let moved ← windows.update index (moveDown managed scalars)
    moveAll managed scalars rest moved

/-- Later windows move when the window that has gone was not empty. -/
def compact (managed scalars : Nat) (later : List Nat) (windows : Windows Window) :
    Option (Windows Window) :=
  if managed ≠ 0 ∨ scalars ≠ 0 then moveAll managed scalars later windows else some windows

/-- `release`: nothing for a stale identity, else the storage without the window. -/
def release (slots : FrameSlots) : Option (Option (ExecutionValues H)) :=
  match state.ranges slots, rposition state.allocationOrder slots.index with
  | some ranges, some order => do
    let windows ← state.windows.retire slots.index
    let allocationOrder := state.allocationOrder.eraseIdx order
    if order + 1 = state.allocationOrder.length then
      some (some { state with
        windows, allocationOrder
        values := state.values.take ranges.managed.start
        payloads := state.payloads.take ranges.scalars.start
        initialized := state.initialized.take ranges.scalars.start })
    else do
      let windows ← compact ranges.managed.len ranges.scalars.len (allocationOrder.drop order) windows
      some (some { state with
        windows, allocationOrder
        values := ranges.managed.drain state.values
        payloads := ranges.scalars.drain state.payloads
        initialized := ranges.scalars.drain state.initialized })
  | _, _ => some none

end ExecutionValues

end Kagari.Runtime
