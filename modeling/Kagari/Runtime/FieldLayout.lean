import Kagari.Lib.Tiling
import Kagari.Runtime.OperandsSound
import Kagari.Runtime.Fields

/-!
# Layouts of struct fields

`StructStorageLayout::prepare` (`module/layout_storage.rs`): fields follow one another, scalars in the width of their
type and all others as a reference of a tag and an identity. A layout that was prepared has its ranges in place
(`Laid`), and so has its list of references.
-/

namespace Kagari

/-- `is_concrete`: no projection, parameter or `Self` is inside. -/
def Ty.isConcrete (ty : Ty) : Bool :=
  match ty with
  | .projection .. | .parameter .. | .selfType _ => false
  | ty => ty.kids.attach.all fun ⟨kid, _⟩ => kid.isConcrete
termination_by sizeOf ty
decreasing_by exact Ty.sizeOf_kid ‹_›

namespace Runtime

open Lib Lib.Tiling List

namespace StoredField

/-- The bytes of a field, from the first up to the one behind. -/
def range : StoredField → Nat × Nat
  | scalar offset encoding => (offset, offset + encoding.width)
  | managed offset => (offset, offset + managedWidth)

def isManaged : StoredField → Bool
  | scalar .. => false
  | managed _ => true

/-- The field of a type at an offset, and its width. -/
def prepare (ty : Ty) (offset : Nat) : Option (StoredField × Nat) :=
  match ty with
  | .builtin .string => some (managed offset, managedWidth)
  | .builtin ty => do return (scalar offset (← ScalarEncoding.new ty), ← scalarWidth ty)
  | _ => some (managed offset, managedWidth)

end StoredField

namespace StructStorageLayout

/-- The body of the loop of `prepare`, on the layout of the fields before. -/
def push (layout : StructStorageLayout) (ty : Ty) : Option StructStorageLayout :=
  if !ty.isConcrete then none
  else
    match StoredField.prepare ty layout.size with
    | none => none
    | some (field, width) =>
      if 2 ^ 64 ≤ layout.size + width then none
      else some {
        fields := layout.fields ++ [field]
        references := if field.isManaged then layout.references ++ [layout.fields.length] else layout.references
        size := layout.size + width }

def prepare (types : List Ty) : Option StructStorageLayout := types.foldlM push ⟨[], [], 0⟩

end StructStorageLayout

/-! ## What a layout is -/

/-- The encoding is the one of its type. -/
def ScalarEncoding.Prepared (encoding : ScalarEncoding) : Prop := ScalarEncoding.new encoding.ty = some encoding

namespace StoredField

/-- The field stores values of a type. -/
def Stores (field : StoredField) (ty : Ty) : Prop :=
  match field with
  | scalar _ encoding => ty = .builtin encoding.ty ∧ encoding.Prepared
  | managed _ => ∀ ty', ty = .builtin ty' → ty' = .string

theorem prepare_some {ty : Ty} {offset width : Nat} {field : StoredField}
    (h : prepare ty offset = some (field, width)) :
    field.Stores ty ∧ field.range = (offset, offset + width) := by
  unfold prepare at h
  split at h
  · cases h
    exact ⟨fun _ h => by cases h; rfl, rfl⟩
  next ty hstrg =>
    simp only [Option.bind_eq_bind, Option.bind_eq_some_iff] at h
    obtain ⟨encoding, hencg, w, hwidth, h⟩ := h
    obtain ⟨rfl, rfl⟩ := Prod.ext_iff.1 (Option.some.inj h)
    have hencg' := hencg
    simp only [ScalarEncoding.new, Option.bind_eq_bind, Option.bind_eq_some_iff, hwidth] at hencg'
    obtain ⟨w, rfl, rfl⟩ := by simpa using hencg'
    exact ⟨⟨rfl, hencg⟩, rfl⟩
  next hblt =>
    cases h
    exact ⟨fun ty' h => absurd h (hblt ty'), rfl⟩

end StoredField

/-- The slots of the fields that hold references. -/
def managedSlots (fields : List StoredField) : List Nat :=
  (fields.zipIdx.filter fun (field, _) => field.isManaged).map Prod.snd

theorem mem_managedSlots {fields : List StoredField} {slot : Nat} :
    slot ∈ managedSlots fields ↔ ∃ offset, fields[slot]? = some (.managed offset) := by
  simp only [managedSlots, mem_map, mem_filter, Prod.exists, exists_eq_right, mem_zipIdx_iff_getElem?]
  constructor
  · rintro ⟨field, hfld, hman⟩
    cases field with
    | scalar => cases hman
    | managed offset => exact ⟨offset, hfld⟩
  · rintro ⟨offset, hfld⟩
    exact ⟨_, hfld, rfl⟩

theorem nodup_managedSlots (fields : List StoredField) : (managedSlots fields).Nodup := by
  have hall : (fields.zipIdx.map Prod.snd).Nodup := by
    rw [zipIdx_map_snd]
    exact nodup_range'
  exact hall.sublist (filter_sublist.map _)

namespace StructStorageLayout

/-- What `prepare` makes of the types of the fields. -/
structure Laid (layout : StructStorageLayout) (types : List Ty) : Prop where
  stores : List.Forall₂ StoredField.Stores layout.fields types
  ranges : Lib.Tiling.Consecutive 0 layout.size (layout.fields.map StoredField.range)
  references : layout.references = managedSlots layout.fields

variable {layout : StructStorageLayout} {types : List Ty}

theorem Laid.push {ty : Ty} {pushed : StructStorageLayout} (h : layout.Laid types)
    (hpush : layout.push ty = some pushed) : pushed.Laid (types ++ [ty]) := by
  unfold StructStorageLayout.push at hpush
  split at hpush
  · cases hpush
  split at hpush
  · cases hpush
  next field width hfld =>
    split at hpush
    · cases hpush
    cases hpush
    obtain ⟨hstrs, hrng⟩ := StoredField.prepare_some hfld
    refine ⟨rel_append h.stores (.cons hstrs .nil), ?_, ?_⟩
    · rw [map_append]
      refine h.ranges.append ?_
      rw [map_singleton, hrng]
      exact ⟨rfl, Nat.le_add_right _ _, rfl⟩
    · dsimp only
      unfold managedSlots
      rw [h.references, zipIdx_append, filter_append, map_append, Nat.zero_add]
      split
      next hman => simp [managedSlots, hman]
      next hscal => simp [managedSlots, hscal]

theorem Laid.foldlM {done : List Ty} (h : layout.Laid done) : ∀ {final : StructStorageLayout},
    types.foldlM StructStorageLayout.push layout = some final → final.Laid (done ++ types) := by
  induction types generalizing layout done with
  | nil =>
    intro final hfin
    cases hfin
    rwa [append_nil]
  | cons ty types ih =>
    intro final hfin
    rw [foldlM_cons] at hfin
    obtain ⟨next, hnext, hrest⟩ := Option.bind_eq_some_iff.1 hfin
    rw [append_cons]
    exact ih (h.push hnext) hrest

theorem prepare_laid (h : prepare types = some layout) : layout.Laid types :=
  (Laid.mk .nil rfl rfl : Laid ⟨[], [], 0⟩ []).foldlM h

end StructStorageLayout

end Runtime

end Kagari
