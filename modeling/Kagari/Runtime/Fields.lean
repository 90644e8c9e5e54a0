import Kagari.Mir.Verify
import Kagari.Types.Arithmetic
import Kagari.Runtime.Operands

/-!
# Struct fields

The layout of a struct's bytes (`module/layout_storage.rs`) and the codecs of its fields
(`gc/fields.rs`, `gc/fields/codec.rs`). A native-endian integer has its least significant byte first.

The nominal layout that a description keeps for type checks is not read by the codecs.
-/

namespace Kagari.Runtime

open List Option

structure HeapObjectId where
  owner : BitVec 32
  slot : BitVec 32
  generation : BitVec 32
deriving DecidableEq

def HeapObjectId.index (id : HeapObjectId) : Nat := id.slot.toNat

abbrev Byte := BitVec 8

/-- Of a heap's values. -/
abbrev HeapValue := Value HeapObjectId

/-! ## Layouts -/

structure ScalarEncoding where
  ty : BuiltinType
  representation : ValueType
  width : Nat
  signed : Bool

inductive StoredField where
  | scalar (offset : Nat) (encoding : ScalarEncoding)
  | managed (offset : Nat)

structure StructStorageLayout where
  fields : List StoredField
  references : List Nat
  size : Nat

def scalarWidth : BuiltinType → Option Nat
  | .unit => some 0
  | .bool => some 1
  | .char | .f32 => some 4
  | .f64 => some 8
  | ty => ty.integerLayout.map fun layout => layout.1 / 8

def ScalarEncoding.new (ty : BuiltinType) : Option ScalarEncoding := do
  return ⟨ty, Mir.builtinRepresentation ty, ← scalarWidth ty, ty.integerLayout.any Prod.snd⟩

/-! ## Codecs -/

/-- `to_ne_bytes`, of an integer of `count` bytes. -/
def toBytes : Nat → Nat → List Byte
  | 0, _ => []
  | count + 1, n => BitVec.ofNat 8 n :: toBytes count (n / 256)

/-- `from_ne_bytes`. -/
def fromBytes : List Byte → Nat
  | [] => 0
  | byte :: bytes => byte.toNat + 256 * fromBytes bytes

/-- The bytes of a range, if it is inside. -/
def bytesAt (bytes : List Byte) (offset length : Nat) : Option (List Byte) :=
  if offset + length ≤ bytes.length then some ((bytes.drop offset).take length) else none

/-- `copy_from_slice`, into a range that starts at `offset`. -/
def overwrite (bytes : List Byte) (offset : Nat) (written : List Byte) : List Byte :=
  bytes.take offset ++ written ++ bytes.drop (offset + written.length)

def storedWidth (width : Nat) : Bool := width == 0 || width == 1 || width == 2 || width == 4 || width == 8

def readScalar (bytes : List Byte) (offset : Nat) (encoding : ScalarEncoding) : Option (BitVec 64) := do
  let stored ← bytesAt bytes offset encoding.width
  if !storedWidth encoding.width then none
  else
    let bits := fromBytes stored
    let extended :=
      if encoding.signed && encoding.width < 8 then
        (BitVec.ofNat (8 * encoding.width) bits).signExtend 64
      else BitVec.ofNat 64 bits
    if admitsBits encoding.representation (some encoding.ty) extended then some extended else none

def writeScalar (bytes : List Byte) (offset : Nat) (encoding : ScalarEncoding) (bits : BitVec 64) :
    Option (List Byte) :=
  if !admitsBits encoding.representation (some encoding.ty) bits then none
  else if bytes.length < offset + encoding.width then none
  else if !storedWidth encoding.width then none
  else some (overwrite bytes offset (toBytes encoding.width bits.toNat))

/-- The tag of a managed value and the identity it holds. -/
def managedTag : HeapValue → Option (Nat × HeapObjectId)
  | .str id => some (1, id)
  | .tuple id => some (2, id)
  | .range id => some (3, id)
  | .array id => some (4, id)
  | .map id => some (5, id)
  | .set id => some (6, id)
  | .enum id => some (7, id)
  | .struct id => some (8, id)
  | .gcHandle id => some (9, id)
  | .closure id => some (10, id)
  | .cell id => some (11, id)
  | .interface id => some (12, id)
  | _ => none

def managedValue (id : HeapObjectId) : Nat → Option HeapValue
  | 1 => some (.str id)
  | 2 => some (.tuple id)
  | 3 => some (.range id)
  | 4 => some (.array id)
  | 5 => some (.map id)
  | 6 => some (.set id)
  | 7 => some (.enum id)
  | 8 => some (.struct id)
  | 9 => some (.gcHandle id)
  | 10 => some (.closure id)
  | 11 => some (.cell id)
  | 12 => some (.interface id)
  | _ => none

def managedWidth : Nat := 13

def readManaged (bytes : List Byte) (offset : Nat) : Option HeapValue := do
  let stored ← bytesAt bytes offset managedWidth
  let word (start : Nat) : BitVec 32 := BitVec.ofNat 32 (fromBytes ((stored.drop start).take 4))
  managedValue ⟨word 1, word 5, word 9⟩ (fromBytes (stored.take 1))

def writeManaged (bytes : List Byte) (offset : Nat) (value : HeapValue) : Option (List Byte) := do
  let (tag, id) ← managedTag value
  if bytes.length < offset + managedWidth then none
  else some (overwrite bytes offset (toBytes 1 tag ++ toBytes 4 id.owner.toNat ++
    toBytes 4 id.slot.toNat ++ toBytes 4 id.generation.toNat))

/-! ## Views -/

/-- `StructView`: a description and the bytes it describes. -/
structure StructView where
  description : StructStorageLayout
  bytes : List Byte

namespace StructView

variable (view : StructView)

def get (slot : Nat) : Option HeapValue := do
  match ← view.description.fields[slot]? with
  | .scalar offset encoding => decode encoding.representation (← readScalar view.bytes offset encoding)
  | .managed offset => readManaged view.bytes offset

def set (slot : Nat) (value : HeapValue) : Option StructView := do
  match ← view.description.fields[slot]? with
  | .scalar offset encoding =>
    if !value.hasRepresentation encoding.representation then none
    else return { view with bytes := ← writeScalar view.bytes offset encoding (← value.encode) }
  | .managed offset => return { view with bytes := ← writeManaged view.bytes offset value }

def setScalar (slot : Nat) (expected : BuiltinType) (bits : BitVec 64) : Option StructView := do
  match ← view.description.fields[slot]? with
  | .scalar offset encoding =>
    if encoding.ty ≠ expected then none
    else return { view with bytes := ← writeScalar view.bytes offset encoding bits }
  | .managed _ => none

/-- The bits of a scalar field, as they are stored. -/
def scalar (slot : Nat) (expected : BuiltinType) : Option (BitVec 64) := do
  match ← view.description.fields[slot]? with
  | .scalar offset encoding =>
    if encoding.ty ≠ expected then none
    else readScalar view.bytes offset encoding
  | .managed _ => none

/-- The values at some slots, up to one that cannot be read, and whether all were visited. -/
def visit : List Nat → List HeapValue × Bool
  | [] => ([], true)
  | slot :: slots =>
    match view.get slot with
    | none => ([], false)
    | some value => (value :: (visit slots).1, (visit slots).2)

def trace : List HeapValue × Bool := view.visit view.description.references.reverse

/-- The fields of a new struct, written in order. -/
def setAll (view : StructView) : List HeapValue → Nat → Option StructView
  | [], _ => some view
  | value :: values, slot => do (← view.set slot value).setAll values (slot + 1)

end StructView

theorem toBytes_length (count n : Nat) : (toBytes count n).length = count := by
  induction count generalizing n with
  | zero => rfl
  | succ count ih => simp [toBytes, ih]

variable {bytes written : List Byte} {offset : Nat}

theorem overwrite_length (h : offset + written.length ≤ bytes.length) :
    (overwrite bytes offset written).length = bytes.length := by
  simp only [overwrite, length_append, length_take, length_drop]
  omega

theorem overwrite_getElem? (h : offset + written.length ≤ bytes.length) (i : Nat) :
    (overwrite bytes offset written)[i]? =
      if offset ≤ i ∧ i < offset + written.length then written[i - offset]? else bytes[i]? := by
  have htake : (bytes.take offset).length = offset := by
    rw [length_take]
    omega
  rw [overwrite, append_assoc, getElem?_append, getElem?_append, htake]
  by_cases hlow : i < offset
  · rw [if_pos hlow, if_neg (by omega), getElem?_take_of_lt hlow]
  · rw [if_neg hlow]
    by_cases hhigh : i - offset < written.length
    · rw [if_pos hhigh, if_pos (by omega)]
    · rw [if_neg hhigh, if_neg (by omega), getElem?_drop]
      congr 1
      omega

/-- The bytes of a range. -/
def slice (bytes : List Byte) (offset length : Nat) : List Byte := (bytes.drop offset).take length

theorem slice_getElem? (bytes : List Byte) (offset length i : Nat) :
    (slice bytes offset length)[i]? = if i < length then bytes[offset + i]? else none := by
  rw [slice, getElem?_take, getElem?_drop]

theorem slice_congr {bytes bytes' : List Byte} {offset offset' length : Nat}
    (h : ∀ i, i < length → bytes'[offset' + i]? = bytes[offset + i]?) :
    slice bytes' offset' length = slice bytes offset length := by
  apply ext_getElem?
  intro i
  rw [slice_getElem?, slice_getElem?]
  split
  · rename_i hi
    exact h i hi
  · rfl

theorem slice_overwrite (h : offset + written.length ≤ bytes.length) :
    slice (overwrite bytes offset written) offset written.length = written := by
  apply ext_getElem?
  intro i
  rw [slice_getElem?]
  split
  · rw [overwrite_getElem? h, if_pos (by omega)]
    congr 1
    omega
  · rw [getElem?_eq_none (by omega)]

/-- A range that the written one is apart from. -/
theorem slice_overwrite_apart (h : offset + written.length ≤ bytes.length) {start length : Nat}
    (hapart : start + length ≤ offset ∨ offset + written.length ≤ start) :
    slice (overwrite bytes offset written) start length = slice bytes start length := by
  apply slice_congr
  intro i hi
  rw [overwrite_getElem? h, if_neg (by omega)]

variable {bits : BitVec 64} {value : HeapValue}

theorem writeScalar_length {encoding : ScalarEncoding}
    (h : writeScalar bytes offset encoding bits = some written) :
    written.length = bytes.length := by
  unfold writeScalar at h
  split at h
  · cases h
  split at h
  · cases h
  split at h
  · cases h
  cases h
  apply overwrite_length
  rw [toBytes_length]
  omega

theorem writeManaged_length
    (h : writeManaged bytes offset value = some written) : written.length = bytes.length := by
  simp only [writeManaged, bind_eq_bind, bind_eq_some_iff] at h
  obtain ⟨tag, -, h⟩ := h
  split at h
  · cases h
  · rename_i hfits
    cases h
    apply overwrite_length
    simp only [length_append, toBytes_length]
    simp only [managedWidth] at hfits
    omega

/-- Writes keep the description and the number of bytes. -/
def StructView.SameShape (a b : StructView) : Prop :=
  b.description = a.description ∧ b.bytes.length = a.bytes.length

theorem StructView.set_sameShape {view written : StructView} {slot : Nat}
    (h : view.set slot value = some written) : view.SameShape written := by
  simp only [set, bind_eq_bind, bind_eq_some_iff] at h
  obtain ⟨field, -, h⟩ := h
  cases field with
  | scalar offset encoding =>
    simp only at h
    split at h
    · cases h
    · obtain ⟨bits, -, h⟩ := bind_eq_some_iff.mp h
      obtain ⟨bytes, hbyt, h⟩ := bind_eq_some_iff.mp h
      cases h
      exact ⟨rfl, writeScalar_length hbyt⟩
  | managed offset =>
    obtain ⟨bytes, hbyt, h⟩ := bind_eq_some_iff.mp h
    cases h
    exact ⟨rfl, writeManaged_length hbyt⟩

theorem StructView.setScalar_sameShape {view written : StructView} {slot : Nat} {expected : BuiltinType}
    (h : view.setScalar slot expected bits = some written) : view.SameShape written := by
  simp only [setScalar, bind_eq_bind, bind_eq_some_iff] at h
  obtain ⟨field, -, h⟩ := h
  cases field with
  | scalar offset encoding =>
    simp only at h
    split at h
    · cases h
    · obtain ⟨bytes, hbyt, h⟩ := bind_eq_some_iff.mp h
      cases h
      exact ⟨rfl, writeScalar_length hbyt⟩
  | managed offset => cases h

theorem StructView.setAll_sameShape {values : List HeapValue} : ∀ {view written : StructView} {slot : Nat},
    view.setAll values slot = some written → view.SameShape written := by
  induction values with
  | nil =>
    intro view written slot h
    cases h
    exact ⟨rfl, rfl⟩
  | cons value values ih =>
    intro view written slot h
    obtain ⟨first, hfst, hrest⟩ := bind_eq_some_iff.mp h
    have hset := set_sameShape hfst
    have hall := ih hrest
    exact ⟨hall.1.trans hset.1, hall.2.trans hset.2⟩

end Kagari.Runtime
