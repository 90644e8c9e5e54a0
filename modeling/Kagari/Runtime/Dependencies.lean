import Mathlib.Algebra.Ring.Nat
import Mathlib.Data.List.AList
import Kagari.Lib.Search

/-!
# The wait-for graph of tasks and executions

`kagari-runtime/src/session/dependencies.rs`: a task leads to the execution (session) that runs it, an
execution to the task it waits for, and a structured group's parent to its two children. Each
operation is one critical section of the registry's lock.

A `HashMap` is a Mathlib `AList`: its keys are distinct by construction. A reservation of memory may
fail: `memory` answers the reservations of one call in their order.
-/

namespace Kagari.Runtime

open Lib Relation

inductive DependencyError where
  | taskAlreadyExecutes
  | alreadyDepends
  | waitCycle
  | resourceLimit (resource : String)
deriving DecidableEq

inductive Node (T S : Type) where
  | session (session : S)
  | task (task : T)
deriving DecidableEq

/-- `Edge`: an execution's wait for a task, with the serial of its registration. -/
structure Wait (T W : Type) where
  target : T
  serial : Nat
  wake : W

/-- `State`. -/
structure Waits (T S W : Type) where
  sessions : AList fun _ : T => S
  edges : AList fun _ : S => Wait T W
  groups : AList fun _ : S => S × S
  serial : Nat

structure WaitLease (S : Type) where
  session : S
  serial : Nat
deriving DecidableEq

structure AsyncLimits where
  maxTaskWaiters : Nat
  maxGroups : Nat

section Graph

variable {T S W : Type} [DecidableEq T] [DecidableEq S]

namespace Waits

def empty : Waits T S W := ⟨∅, ∅, ∅, 0⟩

variable (state : Waits T S W)

/-- What the traversal pushes when it visits a node. -/
def next : Node T S → List (Node T S)
  | .task task => ((state.sessions.lookup task).map .session).toList
  | .session session =>
    ((state.edges.lookup session).map fun edge => .task edge.target).toList ++
      (state.groups.lookup session).elim [] fun children => [.session children.1, .session children.2]

def bound : Nat :=
  state.sessions.entries.length * 2 + state.edges.entries.length * 2 +
    state.groups.entries.length * 3 + 2

/-- `check_edge`, with the answer to its reservations. A visited node pushes at most three nodes, so
the fuel lasts. -/
def checkEdge (reserved : Bool) (source target : Node T S) : Except DependencyError Unit :=
  if !reserved then .error (.resourceLimit "dependency traversal")
  else
    match search state.next source state.bound (state.bound * 3 + 1) [target] [] with
    | none => .error (.resourceLimit "dependency traversal")
    | some true => .error .waitCycle
    | some false => .ok ()

variable (memory : Nat → Bool)

def attach (task : T) (session : S) : Except DependencyError (Waits T S W) :=
  if task ∈ state.sessions then .error .taskAlreadyExecutes
  else do
    state.checkEdge (memory 0) (.task task) (.session session)
    if !memory 1 then .error (.resourceLimit "task execution registrations")
    else .ok { state with sessions := state.sessions.insert task session }

variable (limits : AsyncLimits)

def attachGroup (parent : S) (children : S × S) : Except DependencyError (Waits T S W) :=
  if parent ∈ state.groups ∨ parent ∈ state.edges then .error .alreadyDepends
  else if limits.maxGroups ≤ state.groups.entries.length then
    .error (.resourceLimit "group dependencies")
  else do
    state.checkEdge (memory 0) (.session parent) (.session children.1)
    state.checkEdge (memory 1) (.session parent) (.session children.2)
    if !memory 2 then .error (.resourceLimit "group dependencies")
    else .ok { state with groups := state.groups.insert parent children }

def detachGroup (parent : S) : Waits T S W := { state with groups := state.groups.erase parent }

def register (session : S) (target : T) (wake : W) :
    Except DependencyError (Waits T S W × WaitLease S) :=
  if session ∈ state.edges ∨ session ∈ state.groups then .error .alreadyDepends
  else do
    state.checkEdge (memory 0) (.session session) (.task target)
    if limits.maxTaskWaiters ≤ state.edges.entries.length then
      .error (.resourceLimit "task waiters")
    else if 2 ^ 64 ≤ state.serial + 1 then .error (.resourceLimit "task waiter identities")
    else if !memory 1 then .error (.resourceLimit "task waiters")
    else .ok ({ state with
        serial := state.serial + 1
        edges := state.edges.insert session ⟨target, state.serial + 1, wake⟩ },
      ⟨session, state.serial + 1⟩)

/-- `WaitLease::drop`: the registration goes only if it is still this one. -/
def drop (lease : WaitLease S) : Waits T S W :=
  if (state.edges.lookup lease.session).any fun edge => edge.serial == lease.serial then
    { state with edges := state.edges.erase lease.session }
  else state

/-- The waits without those of the task's own execution. -/
def withoutExecution (task : T) : AList fun _ : S => Wait T W :=
  match state.sessions.lookup task with
  | some session => state.edges.erase session
  | none => state.edges

/-- `complete`: the waits for the task go, and their wakers are returned. -/
def complete (task : T) : Waits T S W × List W :=
  let edges := state.withoutExecution task
  ({ state with
      sessions := state.sessions.erase task
      edges := ⟨edges.entries.filter fun entry => decide (entry.2.target ≠ task),
        edges.nodupKeys.sublist List.filter_sublist⟩ },
    (edges.entries.filter fun entry => decide (entry.2.target = task)).map fun entry => entry.2.wake)

end Waits

/-! ## Runs -/

/-- One call on the registry. A lease is dropped by its place among those that are held. -/
inductive Call (T S W : Type) where
  | attach (task : T) (session : S)
  | attachGroup (parent : S) (children : S × S)
  | detachGroup (parent : S)
  | register (session : S) (target : T) (wake : W)
  | complete (task : T)
  | drop (lease : Nat)

/-- The registry with the leases that are held. -/
structure Registry (T S W : Type) where
  waits : Waits T S W
  leases : List (WaitLease S)

namespace Registry

def start : Registry T S W := ⟨.empty, []⟩

variable (limits : AsyncLimits)

/-- A call that fails changes nothing. -/
def step (registry : Registry T S W) (memory : Nat → Bool) : Call T S W → Registry T S W
  | .attach task session =>
    match registry.waits.attach memory task session with
    | .ok waits => { registry with waits }
    | .error _ => registry
  | .attachGroup parent children =>
    match registry.waits.attachGroup memory limits parent children with
    | .ok waits => { registry with waits }
    | .error _ => registry
  | .detachGroup parent => { registry with waits := registry.waits.detachGroup parent }
  | .register session target wake =>
    match registry.waits.register memory limits session target wake with
    | .ok (waits, lease) => ⟨waits, registry.leases ++ [lease]⟩
    | .error _ => registry
  | .complete task => { registry with waits := (registry.waits.complete task).1 }
  | .drop i =>
    match registry.leases[i]? with
    | some lease => ⟨registry.waits.drop lease, registry.leases.eraseIdx i⟩
    | none => registry

/-- Calls one after another, each with its own answers of the allocator. -/
def run (calls : List ((Nat → Bool) × Call T S W)) (registry : Registry T S W) : Registry T S W :=
  calls.foldl (fun registry call => registry.step limits call.1 call.2) registry

end Registry

end Graph

end Kagari.Runtime
