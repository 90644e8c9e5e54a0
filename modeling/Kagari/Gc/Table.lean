import Kagari.Lib.BitSet

/-!
# Identity tables

`kagari-gc/src/table.rs`: a table of entries under small numbers that it hands out, a radix tree whose
leaves are arrays of 256 slots and whose branches have 64 children. A bit for each slot or child says
that it is full.

The depth of a block is in its type, where the source has a `shift`. A memory reservation is answered by
`reserve`, for each height at which a call can make one. A panic is `none`.
-/

namespace Kagari.Gc

open Lib

inductive GcError where
  | foreignHeap | invalidRoot | representation | storage (what : String) | faulted | closed
  | limit (what : String) | allocation | provider (what : String) | index
deriving DecidableEq

/-- A block of shift 0. -/
structure Leaf (α : Type) where
  slots : List (Option α)
  full : List (BitVec 64)
  len : Nat

/-- A block above; only the first word of `full` is in use. -/
structure Branch (β : Type) where
  children : List (Option β)
  full : BitVec 64
  len : Nat

def Block (α : Type) : Nat → Type
  | 0 => Leaf α
  | height + 1 => Branch (Block α height)

structure Table (α : Type) where
  height : Nat
  root : Block α height

variable {α : Type}

/-- The `shift` of a block. -/
def shift : Nat → Nat
  | 0 => 0
  | 1 => 8
  | height + 2 => shift (height + 1) + 6

/-- `id >> shift`. -/
def digit (height id : Nat) : Nat := id >>> shift (height + 1)

/-- `id & ((1 << shift) - 1)`. -/
def rest (height id : Nat) : Nat := id &&& (1 <<< shift (height + 1) - 1)

namespace Block

def emptyLeaf : Leaf α := ⟨[], List.replicate 4 0, 0⟩

/-- `branch`, with its reservation. -/
def emptyBranch {β : Type} : Branch β := ⟨List.replicate 64 none, 0, 0⟩

def empty : (height : Nat) → Block α height
  | 0 => emptyLeaf
  | _ + 1 => emptyBranch

def len : {height : Nat} → Block α height → Nat
  | 0, leaf => Leaf.len leaf
  | _ + 1, branch => Branch.len branch

def isFull : {height : Nat} → Block α height → Bool
  | 0, leaf => (Leaf.full leaf).all (· == BitVec.allOnes 64)
  | _ + 1, branch => Branch.full branch == BitVec.allOnes 64

/-- `prepare_slot`. A failure keeps the blocks that were made on the way. -/
def prepareSlot (reserve : Nat → Bool) : {height : Nat} → Block α height → Except GcError Nat × Block α height
  | 0, (leaf : Leaf α) =>
    match leaf.full.findIdx? (· != BitVec.allOnes 64) with
    | none => (.error (.limit "metadata identities"), leaf)
    | some word =>
      let index := word * 64 + BitSet.missing (leaf.full.getD word 0)
      if leaf.slots.length ≤ index then
        if reserve 0 then
          (.ok index, ({ leaf with
            slots := leaf.slots ++ List.replicate (index + 1 - leaf.slots.length) none } : Leaf α))
        else (.error .allocation, leaf)
      else (.ok index, leaf)
  | height + 1, (branch : Branch (Block α height)) =>
    let index := BitSet.missing branch.full
    if index = 64 then (.error (.limit "metadata identities"), branch)
    else
      -- A leaf needs no reservation of its own.
      match (branch.children.getD index none).or
          (if height = 0 ∨ reserve height then some (empty height) else none) with
      | none => (.error .allocation, branch)
      | some child =>
        let (offset, child) := prepareSlot reserve child
        (offset.map fun offset => index <<< shift (height + 1) ||| offset,
          ({ branch with children := branch.children.set index (some child) } : Branch (Block α height)))

def insert (value : α) : {height : Nat} → Block α height → Nat → Option (Block α height)
  | 0, (leaf : Leaf α), id =>
    match leaf.slots[id]? with
    | some none =>
      some ({ leaf with
        slots := leaf.slots.set id (some value)
        full := leaf.full.modify (id / 64) fun word => BitSet.insert word (id % 64)
        len := leaf.len + 1 } : Leaf α)
    | _ => none
  | height + 1, (branch : Branch (Block α height)), id =>
    let index := digit height id
    (branch.children[index]?).join.bind fun child =>
      (insert value child (rest height id)).map fun child =>
        ({ branch with
          children := branch.children.set index (some child)
          full := if child.isFull then BitSet.insert branch.full index else branch.full
          len := branch.len + 1 } : Branch (Block α height))

def get : {height : Nat} → Block α height → Nat → Option α
  | 0, (leaf : Leaf α), id => (leaf.slots[id]?).join
  | height + 1, (branch : Branch (Block α height)), id =>
    (branch.children[digit height id]?).join.bind fun child => get child (rest height id)

/-- A change through `get_mut`. -/
def modify (change : α → α) : {height : Nat} → Block α height → Nat → Block α height
  | 0, (leaf : Leaf α), id => ({ leaf with slots := leaf.slots.modify id (·.map change) } : Leaf α)
  | height + 1, (branch : Branch (Block α height)), id =>
    ({ branch with
      children := branch.children.modify (digit height id)
        (·.map fun child => modify change child (rest height id)) } : Branch (Block α height))

/-- `remove`; a block that becomes empty is reset, which is `none` here. -/
def remove : {height : Nat} → Block α height → Nat → Option (α × Option (Block α height))
  | 0, (leaf : Leaf α), id => do
    let value ← (leaf.slots[id]?).join
    let leaf : Leaf α := { leaf with
      slots := leaf.slots.set id none
      full := leaf.full.modify (id / 64) fun word => BitSet.remove word (id % 64)
      len := leaf.len - 1 }
    return (value, if leaf.len = 0 then none else some leaf)
  | height + 1, (branch : Branch (Block α height)), id => do
    let index := digit height id
    let child ← (branch.children[index]?).join
    let (value, child) ← remove child (rest height id)
    -- A child that was reset has no entries and is dropped.
    let branch : Branch (Block α height) := { branch with
      children := branch.children.set index child
      full := BitSet.remove branch.full index
      len := branch.len - 1 }
    return (value, if branch.len = 0 then none else some branch)

def pruneEmpty : {height : Nat} → Block α height → Block α height
  | 0, leaf => leaf
  | height + 1, (branch : Branch (Block α height)) =>
    ({ branch with
      children := branch.children.map fun child =>
        child.bind fun child => if child.len = 0 then none else some (pruneEmpty child) } :
      Branch (Block α height))

end Block

namespace Table

open Block

/-- `Table::default`. -/
def empty : Table α := ⟨0, emptyLeaf⟩

def len (table : Table α) : Nat := table.root.len

def get (table : Table α) (id : Nat) : Option α := table.root.get id

def modify (table : Table α) (id : Nat) (change : α → α) : Table α := ⟨table.height, table.root.modify change id⟩

def prepare (reserve : Nat → Bool) (table : Table α) : Except GcError Nat × Table α :=
  let prepared (table : Table α) : Except GcError Nat × Table α :=
    let (id, root) := table.root.prepareSlot reserve
    (id, ⟨table.height, root⟩)
  if table.root.isFull then
    if shift table.height = 26 then (.error (.limit "metadata identities"), table)
    else if reserve (table.height + 1) then
      -- The new root has the old one as its first child, which is full.
      prepared ⟨table.height + 1, ({
        children := (List.replicate 64 none).set 0 (some table.root)
        full := 1
        len := table.root.len } : Branch (Block α table.height))⟩
    else (.error .allocation, table)
  else prepared table

def insert (table : Table α) (id : Nat) (value : α) : Option (Table α) :=
  (table.root.insert value id).map fun root => ⟨table.height, root⟩

def remove (table : Table α) (id : Nat) : Option α × Table α :=
  match table.root.remove id with
  | none => (none, table)
  | some (value, none) => (some value, empty)
  | some (value, some root) => (some value, ⟨table.height, root⟩)

/-- The loop of `trim`, which drops a root that has entries in its first child only. -/
def trimLoop : (height : Nat) → Block α height → Table α
  | 0, leaf => ⟨0, leaf⟩
  | height + 1, (branch : Branch (Block α height)) =>
    match (branch.children[0]?).join with
    | some child => if child.len = branch.len then trimLoop height child else ⟨height + 1, branch⟩
    | none => ⟨height + 1, branch⟩

def trim (table : Table α) : Table α :=
  if table.len = 0 then empty else trimLoop table.height table.root.pruneEmpty

end Table

end Kagari.Gc
