import Kagari.Gc.TableRuns
import Kagari.Lib.Buffer

/-!
# Root leases

`kagari-gc/src/root.rs` with `shrink_target` and `shrink_vec` of `table.rs`: the registry of root packs.
The handles of a pack share a lease; when the last one goes, wherever that is, the lease puts its identity
into the registry's release queue, and the heap takes one notice at a time out of it.

Leases are numbered as they are made, and the number stands for the address that a weak reference keeps.
The allocator's answers are parameters. A panic is `none`, and so is a push that would have to allocate.
-/

namespace Kagari.Gc

open Lib

structure RootId where
  heap : Nat
  slot : Nat
  generation : Nat
deriving DecidableEq

/-- The handles of a lease: `others` besides the first one, or none while the destructor is still to run, or
none after it. -/
inductive Handles where
  | held (others : Nat)
  | dropping
  | dropped
deriving DecidableEq

structure RootLease where
  id : RootId
  armed : Bool
  handles : Handles
deriving DecidableEq

structure ReleasePort where
  connected : Bool
  credits : Nat
  pending : Buffer RootId

structure RootEntry where
  activeIndex : Nat
  lease : Nat
  targets : List (Option Nat)
  typed : Option Nat

structure RootSlot where
  generation : Nat
  entry : RootEntry

structure Roots where
  heap : Nat
  slots : Table RootSlot
  active : Buffer Nat
  serial : Nat
  released : ReleasePort
  count : Nat

/-- What the allocator answers to `prepare`. -/
structure Reservations where
  active : Option Nat
  targets : Bool
  slots : Nat → Bool
  pending : Option Nat

/-- `Weak::strong_count`. -/
def Handles.strongCount : Handles → Nat
  | .held others => others + 1
  | .dropping | .dropped => 0

/-- `Drop for RootLease`. -/
def RootLease.drop (lease : RootLease) (port : ReleasePort) : Option ReleasePort :=
  if lease.armed ∧ port.connected then
    (port.pending.push lease.id).map fun pending => { port with pending }
  else some port

def shrinkTarget (capacity needed : Nat) : Option Nat :=
  if needed = 0 then (if capacity ≠ 0 then some 0 else none)
  else
    let target := max (min (needed * 2) (2 ^ 64 - 1)) 16
    if min (target * 2) (2 ^ 64 - 1) < capacity then some target else none

def shrinkVec {α : Type} (buffer : Buffer α) (needed : Nat) : Buffer α :=
  match shrinkTarget buffer.capacity (max needed buffer.items.length) with
  | some target => buffer.shrinkTo target
  | none => buffer

namespace Roots

def new (heap : Nat) : Roots := ⟨heap, .empty, .empty, 0, ⟨true, 0, .empty⟩, 0⟩

/-- `prepare`; the lease that it makes has the number `address`. -/
def prepare (roots : Roots) (answers : Reservations) (address count : Nat) (typed : Option Nat) (limit : Nat) :
    Except GcError (RootLease × RootEntry) × Roots :=
  if limit ≤ roots.count then (.error (.limit "root registrations"), roots)
  else match roots.active.reserve answers.active 1 with
  | none => (.error .allocation, roots)
  | some active =>
    let roots := { roots with active }
    if count ≠ 0 ∧ ¬ answers.targets then (.error .allocation, roots)
    else match roots.slots.prepare answers.slots with
    | (.error e, slots) => (.error e, { roots with slots })
    | (.ok slot, slots) =>
      let roots := { roots with slots }
      if 2 ^ 64 ≤ roots.serial + 1 then (.error (.limit "root generation"), roots)
      else
        let generation := roots.serial + 1
        let roots := { roots with serial := generation }
        let port := roots.released
        if 2 ^ 64 ≤ port.credits + 1 then (.error (.limit "release credits"), roots)
        else
          let extra := port.credits + 1 - port.pending.items.length
          match port.pending.reserve answers.pending extra with
          | none => (.error .allocation, roots)
          | some pending =>
            (.ok (⟨⟨roots.heap, slot, generation⟩, false, .held 0⟩,
                ⟨roots.active.items.length, address, List.replicate count none, typed⟩),
              { roots with released := { port with pending } })

/-- `commit`, up to the arming of the lease. -/
def commit (roots : Roots) (id : RootId) (entry : RootEntry) (target : Option Nat) : Option Roots := do
  let entry := { entry with targets := entry.targets.modifyHead fun _ => target }
  let active ← roots.active.push id.slot
  let slots ← roots.slots.insert id.slot ⟨id.generation, entry⟩
  return { roots with
    active, slots
    count := roots.count + 1
    released := { roots.released with credits := roots.released.credits + 1 } }

/-- `admit`. -/
def admitLease (roots : Roots) (address : Nat) (lease : RootLease) : Except GcError RootEntry :=
  if lease.id.heap ≠ roots.heap then .error .foreignHeap
  else match (roots.slots.get lease.id.slot).filter (·.generation = lease.id.generation) with
  | none => .error .invalidRoot
  | some slot => if slot.entry.lease ≠ address then .error .invalidRoot else .ok slot.entry

/-- `replace_with`, where `prepare` has made `target`. -/
def replaceWith (roots : Roots) (address : Nat) (lease : RootLease) (index : Nat)
    (target : Except GcError (Option Nat)) : Except GcError Unit × Roots :=
  match roots.admitLease address lease, target with
  | .error e, _ => (.error e, roots)
  | .ok entry, target =>
    if entry.typed.isSome ∨ entry.targets.length ≤ index then (.error .index, roots)
    else match target with
    | .error e => (.error e, roots)
    | .ok target =>
      (.ok (), { roots with
        slots := roots.slots.modify lease.id.slot fun slot =>
          { slot with entry := { slot.entry with targets := slot.entry.targets.set index target } } })

/-- The first loan of the queue in `release_one`. -/
def popRelease (roots : Roots) : Option (RootId × Roots) :=
  (roots.released.pending.popFront).map fun (id, pending) =>
    (id, { roots with released := { roots.released with pending } })

/-- The entry that a removal moved gets its new place. -/
def renumber (slots : Table RootSlot) (active : Buffer Nat) (index : Nat) : Option (Table RootSlot) :=
  match active.items[index]? with
  | some moved => (slots.get moved).map fun _ =>
      slots.modify moved fun slot => { slot with entry := { slot.entry with activeIndex := index } }
  | none => some slots

/-- The rest of `release_one`. -/
def release (roots : Roots) (leases : List RootLease) (id : RootId) : Option (RootEntry × Roots) := do
  let (some slot, slots) := roots.slots.remove id.slot | none
  if slot.generation ≠ id.generation then none
  let entry := slot.entry
  let lease ← leases[entry.lease]?
  if lease.handles.strongCount ≠ 0 then none
  let active ← roots.active.swapRemove entry.activeIndex
  let slots ← renumber slots active entry.activeIndex
  if roots.count = 0 ∨ roots.released.credits = 0 then none
  return (entry, { roots with
    active, slots
    count := roots.count - 1
    released := { roots.released with credits := roots.released.credits - 1 } })

def trim (roots : Roots) : Roots :=
  let port := roots.released
  { roots with
    slots := roots.slots.trim
    active := shrinkVec roots.active roots.count
    released := { port with
      pending := match shrinkTarget port.pending.capacity port.credits with
        | some target => port.pending.shrinkTo target
        | none => port.pending } }

end Roots

/-! ## The registry in use -/

/-- The heap is lent from a preparation to its commit (`Retention::retain`, `alloc_with`, `create_roots`), and
within `release_one`. -/
inductive Loan where
  | free
  | prepared (lease : Nat) (entry : RootEntry)
  | releasing (id : RootId)

/-- The registry, the leases of its roots, and the notices it has handled. -/
structure Registry where
  roots : Roots
  leases : List RootLease
  loan : Loan
  delivered : List RootId

/-- What the owner of the heap does, and what the owners of handles do. -/
inductive Step where
  | prepare (answers : Reservations) (count : Nat) (typed : Option Nat) (limit : Nat)
  | commit (target : Option Nat)
  | abandon
  | replace (lease index : Nat) (target : Except GcError (Option Nat))
  | popRelease
  | release
  | trim
  | cloneHandle (lease : Nat)
  | dropHandle (lease : Nat)
  | dropLease (lease : Nat)

/-- A further handle, or one handle fewer. -/
def Handles.clone : Handles → Handles
  | .held others => .held (others + 1)
  | handles => handles

def Handles.drop : Handles → Handles
  | .held (others + 1) => .held others
  | .held 0 => .dropping
  | handles => handles

namespace Registry

def start (heap : Nat) : Registry := ⟨.new heap, [], .free, []⟩

def withHandles (s : Registry) (address : Nat) (change : Handles → Handles) : List RootLease :=
  s.leases.modify address fun lease => { lease with handles := change lease.handles }

/-- A prepared root has the only handle of its lease. -/
def isPrepared (s : Registry) (address : Nat) : Bool :=
  match s.loan with
  | .prepared lease _ => lease = address
  | _ => false

/-- What cannot be called changes nothing. -/
def step (s : Registry) (what : Step) : Option Registry :=
  match what, s.loan with
  | .prepare answers count typed limit, .free =>
    match s.roots.prepare answers s.leases.length count typed limit with
    | (.ok (lease, entry), roots) =>
      some { s with roots, leases := s.leases ++ [lease], loan := .prepared s.leases.length entry }
    | (.error _, roots) => some { s with roots }
  | .commit target, .prepared address entry => do
    let lease ← s.leases[address]?
    let roots ← s.roots.commit lease.id entry target
    return { s with roots, leases := s.leases.modify address fun lease => { lease with armed := true }, loan := .free }
  | .abandon, .prepared address _ => some { s with leases := s.withHandles address .drop, loan := .free }
  | .replace address index target, .free =>
    match s.leases[address]? with
    | some lease => some { s with roots := (s.roots.replaceWith address lease index target).2 }
    | none => some s
  | .popRelease, .free =>
    match s.roots.popRelease with
    | some (id, roots) => some { s with roots, loan := .releasing id }
    | none => some s
  | .release, .releasing id => do
    let (_, roots) ← s.roots.release s.leases id
    return { s with roots, loan := .free, delivered := s.delivered ++ [id] }
  | .trim, .free => some { s with roots := s.roots.trim }
  | .cloneHandle address, _ =>
    if s.isPrepared address then some s else some { s with leases := s.withHandles address .clone }
  | .dropHandle address, _ =>
    if s.isPrepared address then some s else some { s with leases := s.withHandles address .drop }
  | .dropLease address, _ =>
    match s.leases[address]? with
    | some lease =>
      if lease.handles = .dropping then
        (lease.drop s.roots.released).map fun released =>
          { s with roots := { s.roots with released }, leases := s.withHandles address fun _ => .dropped }
      else some s
    | none => some s
  | _, _ => some s

def run (s : Registry) : List Step → Option Registry
  | [] => some s
  | what :: rest => (s.step what).bind fun s => s.run rest

/-- The notices between the two halves of `release_one`. -/
def releasing (s : Registry) : List RootId :=
  match s.loan with
  | .releasing id => [id]
  | _ => []

/-- The committed roots whose release was not delivered. -/
def outstanding (s : Registry) : Finset RootId :=
  ((s.leases.filter (·.armed)).map (·.id)).toFinset \ s.delivered.toFinset

end Registry

end Kagari.Gc
