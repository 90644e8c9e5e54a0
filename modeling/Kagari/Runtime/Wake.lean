import Mathlib.Algebra.Ring.Nat
import Kagari.Lib.Interleave

/-!
# Notification routing

`WakeHub` (`kagari-runtime/src/scheduler/wake.rs`) and the scheduler's use of it (`scheduler.rs`), as
programs whose actions are the atomic loads, stores, swaps and lock sections of the source.

- A host callback (cloning, calling or dropping a waker, other contained work) either completes or
  panics. It may call the hub again: that is another thread's operation between two actions of this one
- Any thread may run any operation at any time, so the rule that one driver takes turns is not used
- `log` is not in the source: the marks, turns and calls of wakers so far, the newest first

A waker is a value of `W`. Dropping an absent waker is a callback here as well; `expect("checked waker")`
is passed the waker, since a clone that panicked has set `faulted` before `check`.
-/

namespace Kagari.Runtime

open Lib

/-- `Routes` and the flags of `WakeHub`. -/
structure WakeHub (W : Type) where
  external : Option W
  borrowed : Option (Nat × W)
  serial : Nat
  closed : Bool
  dirty : Bool
  faulted : Bool

def WakeHub.default {W : Type} : WakeHub W := ⟨none, none, 0, false, false, false⟩

/-- The route that `notify` selects. -/
def WakeHub.route {W : Type} (hub : WakeHub W) : Option W :=
  if hub.closed then none else (hub.borrowed.map Prod.snd).or hub.external

structure DriverRegistration where
  hub : Nat
  serial : Nat

inductive WakeEvent (W : Type) where
  | marked
  | raised
  | began
  | woke (waker : W)
  | issued (serial : Nat)

structure WakeState (W : Type) extends WakeHub W where
  log : List (WakeEvent W)

def WakeState.default {W : Type} : WakeState W := { WakeHub.default with log := [] }

inductive HostCallback (W : Type) where
  | clone (waker : W)
  | wake (waker : W)
  | drop
  | other

inductive WakeAction (W : Type) where
  /-- `dirty.swap(true)`, by a readiness mark. -/
  | swapDirty
  | storeDirty (value : Bool)
  | loadDirty
  /-- `faulted.swap(true)`. -/
  | swapFaulted
  | loadFaulted
  | callback (action : HostCallback W)
  /-- The lock section of `notify`. -/
  | route
  | replaceExternal (registered : Option W)
  /-- The lock section of `borrow`. -/
  | install (waker : W)
  /-- The lock section of `update`. -/
  | replaceBorrowed (serial : Nat) (waker : W)
  /-- The lock section of a registration's `drop`. -/
  | takeBorrowed (serial : Nat)
  | close

namespace WakeAction

variable {W : Type}

/-- What an action answers: the old value of a swap, whether a callback completed, the route, the
serial of a new registration, whether the borrowed route was the registration's. -/
@[reducible] def Answer : WakeAction W → Type
  | .swapDirty | .loadDirty | .swapFaulted | .loadFaulted | .callback _ => Bool
  | .storeDirty _ | .replaceExternal _ | .close => Unit
  | .route => Option W
  | .install _ => Option Nat
  | .replaceBorrowed _ _ | .takeBorrowed _ => Bool

def serialLimit : Nat := 2 ^ 64

/-- An action on the hub; `completes` says whether a callback returns. -/
def exec (completes : Bool) : (a : WakeAction W) → WakeState W → WakeState W × a.Answer
  | .swapDirty, s => ({ s with dirty := true, log := .marked :: s.log }, s.dirty)
  | .storeDirty true, s => ({ s with dirty := true, log := .raised :: s.log }, ())
  | .storeDirty false, s => ({ s with dirty := false, log := .began :: s.log }, ())
  | .loadDirty, s => (s, s.dirty)
  | .swapFaulted, s => ({ s with faulted := true }, s.faulted)
  | .loadFaulted, s => (s, s.faulted)
  | .callback (.wake waker), s => ({ s with log := .woke waker :: s.log }, completes)
  | .callback _, s => (s, completes)
  | .route, s => (s, s.toWakeHub.route)
  | .replaceExternal registered, s => (if s.closed then s else { s with external := registered }, ())
  | .install waker, s =>
    if s.closed || s.borrowed.isSome || serialLimit ≤ s.serial + 1 then (s, none)
    else ({ s with serial := s.serial + 1, borrowed := some (s.serial + 1, waker),
                   log := .issued (s.serial + 1) :: s.log }, some (s.serial + 1))
  | .replaceBorrowed serial waker, s =>
    match s.borrowed with
    | none => (s, false)
    | some (current, _) =>
      if current ≠ serial then (s, false) else ({ s with borrowed := some (current, waker) }, true)
  | .takeBorrowed serial, s =>
    if s.borrowed.all (·.1 ≠ serial) then (s, false) else ({ s with borrowed := none }, true)
  | .close, s => ({ s with closed := true, external := none, borrowed := none }, ())

end WakeAction

/-! ## Programs -/

abbrev WakeProg (W α : Type) := Prog (WakeAction W) WakeAction.Answer α

namespace WakeHub

variable {W : Type}

def perform (action : WakeAction W) : WakeProg W action.Answer := Prog.perform action

def storeDirty (value : Bool) : WakeProg W Unit := perform (.storeDirty value)

def callback (action : HostCallback W) : WakeProg W Bool := perform (.callback action)

/-- `contain_callback`, over what the first fault does; `true` if the callback completed. -/
def containCallback (action : HostCallback W) (firstFault : WakeProg W Unit) : WakeProg W Bool := do
  let completed ← callback action
  if completed then return true
  let faulted : Bool ← perform .swapFaulted
  storeDirty true
  -- the payload's destructor; a panic in it is forgotten
  let _ ← callback .drop
  if !faulted then firstFault
  return false

/-- Notification callbacks do not notify their own fault. -/
def notify : WakeProg W Unit := do
  let wake : Option W ← perform .route
  match wake with
  | none => return
  | some wake =>
    let _ ← containCallback (.wake wake) (return)
    let _ ← containCallback .drop (return)

def contain (action : HostCallback W) : WakeProg W Bool := containCallback action notify

def check : WakeProg W Bool := do
  let faulted : Bool ← perform .loadFaulted
  return !faulted

def markReady : WakeProg W Unit := do
  let dirty : Bool ← perform .swapDirty
  if !dirty then notify

def beginTurn : WakeProg W Unit := storeDirty false

/-- The replay of readiness: a notification if the flag is set. -/
def replay : WakeProg W Unit := do
  let dirty : Bool ← perform .loadDirty
  if dirty then notify

def finishTurn (runnable : Bool) : WakeProg W Unit := do
  if runnable then storeDirty true
  replay

def registerExternal (wake : W) : WakeProg W Bool := do
  let registered ← contain (.clone wake)
  let _ ← perform (.replaceExternal (if registered then some wake else none))
  let _ ← contain .drop
  let _ ← contain .drop
  check

/-- `borrow`: the serial of the registration. -/
def borrow (wake : W) : WakeProg W (Option Nat) := do
  let _ ← contain (.clone wake)
  let ok ← check
  if !ok then
    let _ ← contain .drop
    return none
  let serial : Option Nat ← perform (.install wake)
  let _ ← contain .drop
  if serial.isSome then replay
  return serial

/-- `update`, of the hub `this`. -/
def update (this : Nat) (registration : DriverRegistration) (wake : W) : WakeProg W Bool := do
  if registration.hub ≠ this then return false
  let _ ← contain (.clone wake)
  let ok ← check
  if !ok then
    let _ ← contain .drop
    return false
  let replaced : Bool ← perform (.replaceBorrowed registration.serial wake)
  let _ ← contain .drop
  if !replaced then return false
  let _ ← contain .drop
  check

/-- `DriverRegistration::drop`; a registration of another hub leaves this one alone. -/
def dropRegistration (this : Nat) (registration : DriverRegistration) : WakeProg W Unit := do
  if registration.hub ≠ this then return
  let taken : Bool ← perform (.takeBorrowed registration.serial)
  if !taken then return
  let _ ← contain .drop
  replay

def close : WakeProg W Unit := do
  let _ ← perform .close
  let _ ← contain .drop
  let _ ← contain .drop

/-- `SchedulerTurn::drop`. -/
def endSchedulerTurn (runnable : Bool) : WakeProg W Unit := do
  let _ ← contain .other
  finishTurn runnable

/-- `begin_scheduler_turn`, from its check of the hub on. A route that is not registered ends the turn
before it begins. -/
def beginSchedulerTurn (this : Nat) (driver : Option DriverRegistration) (wake : W) (runnable : Bool) :
    WakeProg W Unit := do
  let ok ← check
  if !ok then return
  let registered ← match driver with
    | some registration => update this registration wake
    | none => registerExternal wake
  if registered then beginTurn else endSchedulerTurn runnable

end WakeHub

inductive WakeOperation (W : Type) where
  | markReady
  | contain
  | borrow (waker : W)
  | dropRegistration (registration : DriverRegistration)
  | beginSchedulerTurn (driver : Option DriverRegistration) (waker : W) (runnable : Bool)
  | endSchedulerTurn (runnable : Bool)
  | close

def WakeOperation.code {W : Type} (this : Nat) : WakeOperation W → WakeProg W Unit
  | .markReady => WakeHub.markReady
  | .contain => do let _ ← WakeHub.contain .other
  | .borrow waker => do let _ ← WakeHub.borrow waker
  | .dropRegistration registration => WakeHub.dropRegistration this registration
  | .beginSchedulerTurn driver waker runnable => WakeHub.beginSchedulerTurn this driver waker runnable
  | .endSchedulerTurn runnable => WakeHub.endSchedulerTurn runnable
  | .close => WakeHub.close

abbrev WakeThreads (W : Type) := Threads (WakeState W) (WakeAction W) WakeAction.Answer

end Kagari.Runtime
