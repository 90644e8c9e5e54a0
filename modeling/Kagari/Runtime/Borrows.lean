import Mathlib.Algebra.Ring.Nat
import Mathlib.Data.List.AList

/-!
# Host borrows

`kagari-runtime/src/host/borrows.rs`: a call frame borrows host objects, whole or by a path of inline
fields. The records of a frame are what it holds; the counts by path decide whether a new borrow
conflicts. Leaving the frame gives its borrows back.

Objects, types and fields are arbitrary types. `allowed` is the answer of
`ensure_execution_allowed`, and `memory` answers the reservations of one call in their order. The
roots of a frame are left out: no function here reads them.
-/

namespace Kagari.Runtime

inductive HostBorrowKind where
  | shared
  | unique
deriving DecidableEq

def HostBorrowKind.satisfies : HostBorrowKind → HostBorrowKind → Bool
  | .shared, .shared | .unique, .shared | .unique, .unique => true
  | .shared, .unique => false

inductive BorrowObjectKey (O : Type) where
  | installed (object : O)
  | external (object : O)
deriving DecidableEq

structure FrameHostBorrowToken (O Y : Type) where
  owner : Nat
  frameId : Nat
  objectId : O
  borrowKind : HostBorrowKind
  typeId : Y
  epoch : Nat

structure FrameBorrowRecord (O Y F : Type) where
  objectId : O
  borrowKind : HostBorrowKind
  typeId : Option Y
  path : List F

structure PathBorrowState (F : Type) where
  path : List F
  sharedCount : Nat
  uniqueCount : Nat

structure ActiveBorrowFrame (O Y F : Type) where
  epoch : Nat
  borrows : List (FrameBorrowRecord O Y F)

structure HostBorrowState (O Y F : Type) where
  nextFrameId : Nat
  nextEpoch : Nat
  activeFrames : AList fun _ : Nat => ActiveBorrowFrame O Y F
  objectBorrows : AList fun _ : BorrowObjectKey O => List (PathBorrowState F)

/-- What a `HostCallGuard` names in its table. -/
structure HostCallGuard where
  frameId : Nat
  epoch : Nat
deriving DecidableEq

inductive BorrowError (O : Type) where
  | executionRefused
  | frameIdentityExhausted
  | epochExhausted
  | sharedCountExhausted
  | capacity
  | otherOwner
  | frameInactive (frame : Nat)
  | epochMismatch (frame : Nat)
  | kindMismatch (available required : HostBorrowKind)
  | tokenInactive (object : O)
  | conflict (object : O)
deriving DecidableEq

section Table

variable {O Y F : Type} [DecidableEq O] [DecidableEq Y] [DecidableEq F]

namespace FrameBorrowRecord

variable (record : FrameBorrowRecord O Y F)

def objectKey : BorrowObjectKey O :=
  if record.typeId.isSome then .installed record.objectId else .external record.objectId

def «matches» (token : FrameHostBorrowToken O Y) : Bool :=
  decide (record.objectId = token.objectId) && record.borrowKind.satisfies token.borrowKind &&
    decide (record.typeId = some token.typeId) && record.path.isEmpty

end FrameBorrowRecord

/-- `paths_overlap`: one is a prefix of the other. -/
def pathsOverlap (left right : List F) : Bool := right.isPrefixOf left || left.isPrefixOf right

namespace PathBorrowState

variable (entry : PathBorrowState F)

def count : HostBorrowKind → Nat
  | .shared => entry.sharedCount
  | .unique => entry.uniqueCount

/-- One more borrow. Only the shared count is checked: a unique borrow is the first of its path. -/
def add : HostBorrowKind → Option (PathBorrowState F)
  | .shared =>
    if entry.sharedCount + 1 < 2 ^ 64 then some { entry with sharedCount := entry.sharedCount + 1 }
    else none
  | .unique => some { entry with uniqueCount := entry.uniqueCount + 1 }

/-- One borrow less; a count of zero stays. -/
def sub : HostBorrowKind → PathBorrowState F
  | .shared => { entry with sharedCount := entry.sharedCount - 1 }
  | .unique => { entry with uniqueCount := entry.uniqueCount - 1 }

/-- The test that refuses `record`. -/
def conflicts (record : FrameBorrowRecord O Y F) : Bool :=
  pathsOverlap entry.path record.path &&
    (decide (0 < entry.uniqueCount) ||
      (decide (record.borrowKind = .unique) && decide (0 < entry.sharedCount)))

end PathBorrowState

/-- The place of a path, with what is there. -/
def pathSlot (paths : List (PathBorrowState F)) (path : List F) : Option (Nat × PathBorrowState F) :=
  (paths.findIdx? fun entry => decide (entry.path = path)).bind fun slot =>
    paths[slot]?.map fun entry => (slot, entry)

/-- The place of a path, a new one at the end if it has none and there is memory for it. -/
def preparePath (reserved : Bool) (paths : List (PathBorrowState F)) (path : List F) :
    Option (List (PathBorrowState F) × Nat × PathBorrowState F) :=
  match pathSlot paths path with
  | some (slot, entry) => some (paths, slot, entry)
  | none => if reserved then some (paths ++ [⟨path, 0, 0⟩], paths.length, ⟨path, 0, 0⟩) else none

/-- `Vec::swap_remove`. -/
def swapRemove {α : Type} (items : List α) (slot : Nat) : List α :=
  match items.getLast? with
  | some last => (items.set slot last).dropLast
  | none => items

namespace HostBorrowState

def empty : HostBorrowState O Y F := ⟨0, 0, ∅, ∅⟩

variable (state : HostBorrowState O Y F)

def enterFrameIn (allowed : Bool) (memory : Nat → Bool) :
    Except (BorrowError O) (HostBorrowState O Y F × HostCallGuard) :=
  if !allowed then .error .executionRefused
  else if 2 ^ 64 ≤ state.nextFrameId + 1 then .error .frameIdentityExhausted
  else if 2 ^ 64 ≤ state.nextEpoch + 1 then .error .epochExhausted
  else if !memory 0 then .error .capacity
  else .ok (⟨state.nextFrameId + 1, state.nextEpoch + 1,
      state.activeFrames.insert state.nextFrameId ⟨state.nextEpoch, []⟩, state.objectBorrows⟩,
    ⟨state.nextFrameId, state.nextEpoch⟩)

def validate (owner : Nat) (token : FrameHostBorrowToken O Y) (required : HostBorrowKind) :
    Except (BorrowError O) Unit :=
  if token.owner ≠ owner then .error .otherOwner
  else
    match state.activeFrames.lookup token.frameId with
    | none => .error (.frameInactive token.frameId)
    | some frame =>
      if frame.epoch ≠ token.epoch then .error (.epochMismatch token.frameId)
      else if !token.borrowKind.satisfies required then
        .error (.kindMismatch token.borrowKind required)
      else if !frame.borrows.any fun record => record.matches token then
        .error (.tokenInactive token.objectId)
      else .ok ()

/-- The entry of an object, an empty one if it has none. -/
def paths (key : BorrowObjectKey O) : List (PathBorrowState F) :=
  (state.objectBorrows.lookup key).getD []

def setPaths (key : BorrowObjectKey O) (paths : List (PathBorrowState F)) : HostBorrowState O Y F :=
  { state with objectBorrows := state.objectBorrows.insert key paths }

/-- `borrow_record`. The entry of the object is made before the checks that may still refuse. -/
def borrowRecord (allowed : Bool) (memory : Nat → Bool) (guard : HostCallGuard)
    (record : FrameBorrowRecord O Y F) : Except (BorrowError O) Unit × HostBorrowState O Y F :=
  if !allowed then (.error .executionRefused, state)
  else
    match state.activeFrames.lookup guard.frameId with
    | none => (.error (.frameInactive guard.frameId), state)
    | some frame =>
      if frame.epoch ≠ guard.epoch then (.error (.epochMismatch guard.frameId), state)
      else if !(memory 0 && memory 1) then (.error .capacity, state)
      else
        let paths := state.paths record.objectKey
        let entered := state.setPaths record.objectKey paths
        if paths.any fun entry => entry.conflicts record then
          (.error (.conflict record.objectId), entered)
        else
          match preparePath (memory 2) paths record.path with
          | none => (.error .capacity, entered)
          | some (prepared, slot, entry) =>
            match entry.add record.borrowKind with
            | none => (.error .sharedCountExhausted, state.setPaths record.objectKey prepared)
            | some counted =>
              let borrowed := state.setPaths record.objectKey (prepared.set slot counted)
              (.ok (), { borrowed with
                activeFrames := borrowed.activeFrames.insert guard.frameId
                  { frame with borrows := frame.borrows ++ [record] } })

/-- `borrow`: the whole of an installed object. -/
def borrow (owner : Nat) (allowed : Bool) (memory : Nat → Bool) (guard : HostCallGuard) (object : O)
    (kind : HostBorrowKind) (type : Y) :
    Except (BorrowError O) (FrameHostBorrowToken O Y) × HostBorrowState O Y F :=
  match state.borrowRecord allowed memory guard ⟨object, kind, some type, []⟩ with
  | (.ok (), borrowed) => (.ok ⟨owner, guard.frameId, object, kind, type, guard.epoch⟩, borrowed)
  | (.error error, left) => (.error error, left)

end HostBorrowState

/-- The entries with the new counts of one, which goes when they are zero. -/
def recount (paths : List (PathBorrowState F)) (slot : Nat) (counted : PathBorrowState F) :
    List (PathBorrowState F) :=
  if counted.sharedCount = 0 ∧ counted.uniqueCount = 0 then swapRemove paths slot
  else paths.set slot counted

/-- The object keeps the entries that are left, and goes with the last. -/
def keepPaths (objects : AList fun _ : BorrowObjectKey O => List (PathBorrowState F))
    (key : BorrowObjectKey O) (left : List (PathBorrowState F)) :
    AList fun _ : BorrowObjectKey O => List (PathBorrowState F) :=
  if left.isEmpty then objects.erase key else objects.insert key left

/-- One record is given back: the map, and the broken invariants that are reported. -/
def giveBack (objects : AList fun _ : BorrowObjectKey O => List (PathBorrowState F))
    (record : FrameBorrowRecord O Y F) :
    (AList fun _ : BorrowObjectKey O => List (PathBorrowState F)) × List String :=
  match objects.lookup record.objectKey with
  | none => (objects, ["host object borrow disappeared during cleanup"])
  | some paths =>
    match pathSlot paths record.path with
    | none =>
      (keepPaths objects record.objectKey paths, ["host path borrow disappeared during cleanup"])
    | some (slot, entry) =>
      (keepPaths objects record.objectKey (recount paths slot (entry.sub record.borrowKind)),
        if entry.count record.borrowKind = 0 then ["host path borrow count underflow"] else [])

def giveBackAll : List (FrameBorrowRecord O Y F) →
    (AList fun _ : BorrowObjectKey O => List (PathBorrowState F)) →
    (AList fun _ : BorrowObjectKey O => List (PathBorrowState F)) × List String
  | [], objects => (objects, [])
  | record :: records, objects =>
    let first := giveBack objects record
    let rest := giveBackAll records first.1
    (rest.1, first.2 ++ rest.2)

/-- `leave_frame`. -/
def HostBorrowState.leaveFrame (state : HostBorrowState O Y F) (guard : HostCallGuard) :
    HostBorrowState O Y F × List String :=
  match state.activeFrames.lookup guard.frameId with
  | none => (state, ["host borrow frame disappeared during cleanup"])
  | some frame =>
    let given := giveBackAll frame.borrows state.objectBorrows
    ({ state with
        activeFrames := state.activeFrames.erase guard.frameId
        objectBorrows := given.1 },
      (if frame.epoch ≠ guard.epoch then ["host borrow frame epoch changed during cleanup"] else []) ++
        given.2)

/-! ## Runs -/

/-- One call. A guard is named by its place among those that are held: it is left once. -/
inductive BorrowCall (O Y F : Type) where
  | enter
  | borrow (guard : Nat) (record : FrameBorrowRecord O Y F)
  | leave (guard : Nat)

/-- How the runtime and the allocator answer one call. -/
structure BorrowAnswers where
  allowed : Bool
  memory : Nat → Bool

/-- The table with the guards that are held, and what was reported. -/
structure HostBorrowTable (O Y F : Type) where
  state : HostBorrowState O Y F
  guards : List HostCallGuard
  reports : List String

namespace HostBorrowTable

def start : HostBorrowTable O Y F := ⟨.empty, [], []⟩

def step (table : HostBorrowTable O Y F) (answers : BorrowAnswers) :
    BorrowCall O Y F → HostBorrowTable O Y F
  | .enter =>
    match table.state.enterFrameIn answers.allowed answers.memory with
    | .ok (state, guard) => { table with state, guards := table.guards ++ [guard] }
    | .error _ => table
  | .borrow i record =>
    match table.guards[i]? with
    | some guard =>
      { table with state :=
          (table.state.borrowRecord answers.allowed answers.memory guard record).2 }
    | none => table
  | .leave i =>
    match table.guards[i]? with
    | some guard =>
      let left := table.state.leaveFrame guard
      ⟨left.1, table.guards.eraseIdx i, table.reports ++ left.2⟩
    | none => table

def run (calls : List (BorrowAnswers × BorrowCall O Y F)) (table : HostBorrowTable O Y F) :
    HostBorrowTable O Y F :=
  calls.foldl (fun table call => table.step call.1 call.2) table

end HostBorrowTable

end Table

end Kagari.Runtime
