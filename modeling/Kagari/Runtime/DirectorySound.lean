import Kagari.Lib.Arena
import Kagari.Runtime.Directory
import Kagari.Runtime.FieldsSound

/-!
# The directory is consistent

`Consistent` relates the directory of a storage to its stores: a slot's location is the position of the
row that carries the slot's index, and each row has one; wrappers are listed once; the records of structs
cover the arena. Every operation keeps it, and says what it does to the contents of each slot.
-/

namespace Kagari.Runtime

open Lib Function List Option

variable {location : PayloadLocation} {reserve : Nat → Bool} {view : StructView}

/-- Values that are admitted can be written, where the heap admits only what managed fields hold. -/
theorem prepareStructStorage_isSome {admitted : Nat → HeapValue → Bool} {description : StructStorageLayout}
    {types : List Ty} (hlaid : description.Laid types)
    (hmanaged : ∀ slot value, admitted slot value = true → (managedTag value).isSome) (values : List HeapValue) :
    (prepareStructStorage admitted description values).isSome ↔
      values.length = description.fields.length ∧ admitsFields admitted description values = true := by
  unfold prepareStructStorage
  split
  · rename_i h
    simp only [ne_eq, Bool.or_eq_true, decide_eq_true_eq, Bool.not_eq_true'] at h
    simp only [Option.isSome_none, Bool.false_eq_true, false_iff]
    rintro ⟨hlen, hall⟩
    simp [hlen, hall] at h
  · rename_i h
    simp only [ne_eq, Bool.or_eq_true, decide_eq_true_eq, Bool.not_eq_true', not_or, not_not,
      Bool.not_eq_false] at h
    have hall : ∀ i value, values[i]? = some value →
        ∃ field, description.fields[0 + i]? = some field ∧ field.admits value = true := by
      intro i value hi
      have hlt : i < description.fields.length := h.1 ▸ (List.getElem?_eq_some_iff.mp hi).1
      have hfld := List.getElem?_eq_getElem hlt
      have hmem : ((description.fields[i], value), i) ∈ (description.fields.zip values).zipIdx := by
        rw [List.mk_mem_zipIdx_iff_getElem?, List.getElem?_zip_eq_some]
        exact ⟨hfld, hi⟩
      have hone := List.all_eq_true.mp h.2 _ hmem
      refine ⟨_, by rw [Nat.zero_add]; exact hfld, ?_⟩
      dsimp only at hone
      unfold StoredField.admits
      revert hone
      cases description.fields[i] with
      | scalar => exact id
      | managed => exact hmanaged _ _
    obtain ⟨final, hfinal⟩ := @setAll_of_admits description types hlaid values 0
      ⟨description, List.replicate description.size 0⟩ rfl List.length_replicate hall
    split
    · simpa using h
    · rename_i hnone
      cases hnone.symm.trans hfinal

namespace ObjectStorage

variable {P : PlainKind → Type} {s : ObjectStorage P}

/-! ## Slots -/

/-- `locationAt`, of a list of slots. -/
def locationIn (slots : List ObjectSlot) (index : Nat) : Option PayloadLocation :=
  (slots[index]?).bind ObjectSlot.location

theorem locationAt_eq (s : ObjectStorage P) (index : Nat) : s.locationAt index = locationIn s.slots index := rfl

theorem locationIn_append (slots : List ObjectSlot) (slot : ObjectSlot) (i : Nat) :
    locationIn (slots ++ [slot]) i = if i = slots.length then slot.location else locationIn slots i := by
  unfold locationIn
  rcases Nat.lt_trichotomy i slots.length with hlt | rfl | hgt
  · rw [getElem?_append_left hlt, if_neg (by omega)]
  · simp
  · rw [if_neg (by omega), getElem?_eq_none (by simp; omega), getElem?_eq_none (by omega)]

variable {slots : List ObjectSlot} {d : Nat}

theorem locationIn_set (hd : d < slots.length) (slot : ObjectSlot) (i : Nat) :
    locationIn (slots.set d slot) i = if i = d then slot.location else locationIn slots i := by
  unfold locationIn
  rw [getElem?_set]
  by_cases h : d = i
  · subst h
    simp [hd]
  · rw [if_neg h, if_neg (Ne.symm h)]

theorem locationIn_modify (slots : List ObjectSlot) (d : Nat) (f : ObjectSlot → ObjectSlot) (i : Nat) :
    locationIn (slots.modify d f) i =
      if i = d then (slots[d]?).bind fun slot => (f slot).location else locationIn slots i := by
  unfold locationIn
  rw [getElem?_modify]
  by_cases h : d = i
  · subst h
    cases slots[d]? <;> simp
  · rw [if_neg (Ne.symm h)]
    cases slots[i]? <;> simp [h]

theorem locationIn_relocate (slots : List ObjectSlot) (d index i : Nat) :
    locationIn (relocate slots d index) i =
      if i = d then (locationIn slots d).map ({ · with index }) else locationIn slots i := by
  rw [relocate, locationIn_modify]
  split
  · unfold locationIn
    cases slots[d]? <;> rfl
  · rfl

theorem locationIn_vacate (slots : List ObjectSlot) (d i : Nat) :
    locationIn (vacate slots d) i = if i = d then none else locationIn slots i := by
  rw [vacate, locationIn_modify]
  split
  · cases slots[d]? <;> rfl
  · rfl

theorem generations_set {slot : ObjectSlot} (h : slots[d]? = some slot)
    (location : Option PayloadLocation) :
    (slots.set d { slot with location }).map ObjectSlot.generation = slots.map ObjectSlot.generation := by
  apply List.ext_getElem?
  intro i
  rw [List.getElem?_map, List.getElem?_map, List.getElem?_set]
  by_cases hi : d = i
  · subst hi
    rw [if_pos rfl, if_pos (List.getElem?_eq_some_iff.mp h).1, h]
    rfl
  · rw [if_neg hi]

theorem generations_modify (slots : List ObjectSlot) (d : Nat) {f : ObjectSlot → ObjectSlot}
    (h : ∀ slot, (f slot).generation = slot.generation) :
    (slots.modify d f).map ObjectSlot.generation = slots.map ObjectSlot.generation := by
  apply ext_getElem?
  intro i
  rw [getElem?_map, getElem?_map, getElem?_modify]
  cases slots[i]? with
  | none => rfl
  | some slot => by_cases hi : d = i <;> simp [hi, h]

theorem generations_relocate (slots : List ObjectSlot) (d index : Nat) :
    (relocate slots d index).map ObjectSlot.generation = slots.map ObjectSlot.generation :=
  generations_modify slots d fun _ => rfl

theorem generations_vacate (slots : List ObjectSlot) (d : Nat) :
    (vacate slots d).map ObjectSlot.generation = slots.map ObjectSlot.generation :=
  generations_modify slots d fun _ => rfl

/-! ## Consistency -/

/-- The row of a kind that a slot is at. -/
def position (s : ObjectStorage P) (kind : PayloadKind) (directory : Nat) : Option Nat :=
  (s.locationAt directory).bind fun location => if location.kind = kind then some location.index else none

theorem position_eq_some {kind : PayloadKind} {d j : Nat} :
    s.position kind d = some j ↔ s.locationAt d = some ⟨kind, j⟩ := by
  unfold position
  cases s.locationAt d with
  | none => simp
  | some location =>
    obtain ⟨k, i⟩ := location
    by_cases h : k = kind
    · simp [h]
    · simp [h]

theorem position_eq_none {kind : PayloadKind} :
    s.position kind d = none ↔ ∀ j, s.locationAt d ≠ some ⟨kind, j⟩ := by
  rw [eq_none_iff_forall_ne_some]
  exact forall_congr' fun j => not_congr position_eq_some

/-- The byte ranges of the records, one after another from `start` to `stop`. -/
def Tiled : List (Entry StructRecord) → Nat → Nat → Prop
  | [], start, stop => start = stop
  | entry :: entries, start, stop =>
    entry.payload.offset = start ∧ Tiled entries (start + entry.payload.description.size) stop

structure Consistent (s : ObjectStorage P) : Prop where
  indexed : ∀ kind, kind ≠ .interface → Dense.Indexed (s.stores kind) (s.position kind)
  nodup : s.interfaceDirectories.Nodup
  listed : ∀ i, i ∈ s.interfaceDirectories ↔ (s.position .interface i).isSome
  tiled : Tiled (s.stores .struct) 0 s.structBytes.length

theorem Consistent.empty : Consistent (empty : ObjectStorage P) where
  indexed _ _ := Dense.Indexed.empty.congr fun _ => rfl
  nodup := .nil
  listed i := by
    constructor
    · intro h
      cases h
    · intro h
      cases h
  tiled := rfl

theorem Consistent.row (h : Consistent s) {kind : PayloadKind} (hkind : kind ≠ .interface) {d j : Nat}
    (hd : s.locationAt d = some ⟨kind, j⟩) : ∃ e, (s.stores kind)[j]? = some e ∧ e.directory = d :=
  (h.indexed kind hkind).entry (position_eq_some.mpr hd)

/-- A slot of another location is put in a vacant place. -/
theorem position_place
    (hd : s.locationAt d = none)
    (hsl : ∀ i, locationIn slots i = if i = d then some location else s.locationAt i)
    (kind : PayloadKind) : position { s with slots } kind =
      if location.kind = kind then update (s.position kind) d (some location.index)
      else s.position kind := by
  funext i
  have hi : locationAt { s with slots } i = if i = d then some location else s.locationAt i := hsl i
  by_cases h : i = d
  · subst h
    rw [if_pos rfl] at hi
    simp only [position, hi, bind_some]
    split
    · rw [update_self]
    · simp [position, hd]
  · rw [if_neg h] at hi
    simp only [position, hi]
    split
    · rw [update_of_ne h]
      rfl
    · rfl

/-! ## Allocation -/

variable {entries : List (Entry StructRecord)}

theorem Tiled.append : ∀ {start stop : Nat}, Tiled entries start stop →
    ∀ (d : Nat) (description : StructStorageLayout),
      Tiled (entries ++ [⟨d, ⟨description, stop⟩⟩]) start (stop + description.size) := by
  induction entries with
  | nil =>
    intro start stop h d description
    obtain rfl : start = stop := h
    exact ⟨rfl, rfl⟩
  | cons entry entries ih =>
    intro start stop h d description
    exact ⟨h.1, ih h.2 d description⟩

theorem Tiled.range : ∀ {start stop j : Nat} {e : Entry StructRecord},
    Tiled entries start stop → entries[j]? = some e →
      start ≤ e.payload.offset ∧ e.payload.offset + e.payload.description.size ≤ stop := by
  induction entries with
  | nil => simp
  | cons entry entries ih =>
    intro start stop j e h he
    cases j with
    | zero =>
      obtain rfl : entry = e := by simpa using he
      refine ⟨h.1.ge, ?_⟩
      cases entries with
      | nil =>
        have hstop := h.2
        have hst := h.1
        simp only [Tiled] at hstop
        omega
      | cons next entries =>
        have hnext := ih (j := 0) h.2 rfl
        have hst := h.1
        omega
    | succ j =>
      have := ih h.2 (by simpa using he)
      omega

/-- The ranges of two records are apart. -/
theorem Tiled.apart : ∀ {start stop i j : Nat} {a b : Entry StructRecord},
    Tiled entries start stop → entries[i]? = some a → entries[j]? = some b → i < j →
      a.payload.offset + a.payload.description.size ≤ b.payload.offset := by
  induction entries with
  | nil => simp
  | cons entry entries ih =>
    intro start stop i j a b h ha hb hij
    obtain ⟨j, rfl⟩ : ∃ j', j = j' + 1 := ⟨j - 1, by omega⟩
    have hb' : entries[j]? = some b := by simpa using hb
    cases i with
    | zero =>
      obtain rfl : entry = a := by simpa using ha
      rw [h.1]
      exact (h.2.range hb').1
    | succ i => exact ih h.2 (by simpa using ha) hb' (by omega)

/-- A new row of a kind, for a vacant slot. -/
theorem Consistent.push (h : Consistent s) (hd : s.locationAt d = none) {kind : PayloadKind}
    (hkind : kind ≠ .interface) (payload : Row P kind) {bytes : List Byte}
    (hsl : ∀ i, locationIn slots i =
      if i = d then some ⟨kind, (s.stores kind).length⟩ else s.locationAt i)
    (htiled : Tiled (update s.stores kind (s.stores kind ++ [⟨d, payload⟩]) .struct) 0 bytes.length) :
    Consistent ⟨slots, update s.stores kind (s.stores kind ++ [⟨d, payload⟩]), bytes,
      s.interfaceDirectories⟩ := by
  have hpos : ∀ k, position ⟨slots, update s.stores kind (s.stores kind ++ [⟨d, payload⟩]), bytes,
      s.interfaceDirectories⟩ k = _ := fun k => position_place hd hsl k
  refine ⟨fun k hk => ?_, h.nodup, fun i => ?_, htiled⟩
  · rw [hpos]
    by_cases hkk : kind = k
    · subst hkk
      rw [if_pos rfl]
      simp only [update_self]
      exact (h.indexed kind hk).push (position_eq_none.mpr (by simp [hd])) payload
    · rw [if_neg hkk]
      simp only [update_of_ne (Ne.symm hkk)]
      exact h.indexed k hk
  · rw [hpos, if_neg hkind]
    exact h.listed i

variable {object : OwnedObject P} {s' : ObjectStorage P}

theorem Consistent.insert (h : Consistent s) (hd : s.locationAt d = none)
    (hins : s.insert reserve d object = some (s', location))
    (hsl : ∀ i, locationIn slots i = if i = d then some location else s.locationAt i) :
    Consistent { s' with slots } := by
  cases object with
  | plain kind payload =>
    cases (ite_none_left_eq_some.mp hins).2
    exact h.push hd (by simp) (show Row P (.plain kind) from payload) hsl h.tiled
  | struct storage =>
    cases (ite_none_left_eq_some.mp hins).2
    have hshp := StructView.setAll_sameShape storage.encodes
    refine h.push hd (by simp) _ hsl ?_
    have hlen : storage.view.bytes.length = storage.description.size := by simpa using hshp.2
    simp only [update_self, length_append, hlen]
    exact h.tiled.append d storage.description
  | interface snapshot =>
    cases (ite_none_left_eq_some.mp hins).2
    have hpos := position_place hd hsl
    have hnew : d ∉ s.interfaceDirectories := by
      rw [h.listed, position_eq_none.mpr (by simp [hd])]
      simp
    refine ⟨fun k hk => ?_, ?_, fun i => ?_, h.tiled⟩
    · have := hpos k
      rw [if_neg (Ne.symm hk)] at this
      exact (h.indexed k hk).congr fun i => congrFun this i
    · exact nodup_append.mpr ⟨h.nodup, by simp, by
        intro a ha b hb
        rw [mem_singleton.mp hb]
        rintro rfl
        exact hnew ha⟩
    · have hi := congrFun (hpos .interface) i
      rw [if_pos rfl] at hi
      refine Iff.trans ?_ (Iff.of_eq (congrArg (·.isSome = true) hi.symm))
      by_cases hid : i = d
      · subst hid
        simp
      · rw [update_of_ne hid, ← h.listed, mem_append, mem_singleton]
        simp [hid]
  | cell ty value =>
    cases (ite_none_left_eq_some.mp hins).2
    exact h.push hd (by simp) _ hsl h.tiled

/-- Rows and bytes only come at the end. -/
theorem insert_grows
    (hins : s.insert reserve d object = some (s', location)) :
    (∀ kind, s.stores kind <+: s'.stores kind) ∧ s.structBytes <+: s'.structBytes := by
  have hpush (kind : PayloadKind) (row : Row P kind) (k : PayloadKind) :
      s.stores k <+: update s.stores kind (s.stores kind ++ [⟨d, row⟩]) k := by
    by_cases hk : k = kind
    · subst hk
      rw [update_self]
      exact prefix_append _ _
    · exact ⟨[], by rw [update_of_ne hk, append_nil]⟩
  cases object <;> simp only [ObjectStorage.insert] at hins <;> split at hins <;> try cases hins
  · exact ⟨hpush _ _, prefix_rfl⟩
  · exact ⟨hpush _ _, prefix_append _ _⟩
  · exact ⟨fun _ => prefix_rfl, prefix_rfl⟩
  · exact ⟨hpush _ _, prefix_rfl⟩

end ObjectStorage

/-! ## Contents -/

/-- The slots to use again have no snapshot. -/
structure InterfaceStore.FreeVacant {D : Type} (store : InterfaceStore D) : Prop where
  nodup : store.free.Nodup
  vacant : ∀ i ∈ store.free, store.directoryBinding i = none

/-- A snapshot that is live is the one its slot binds. -/
theorem InterfaceStore.directoryBinding_of_get {D : Type} {store : InterfaceStore D} {id : InterfaceSnapshotId}
    (h : (store.get id).isSome) : store.directoryBinding id.slot = some id := by
  unfold InterfaceStore.get at h
  unfold InterfaceStore.directoryBinding
  cases hslot : store.slots[id.slot]? with
  | none => simp [hslot] at h
  | some slot =>
    by_cases hgen : slot.generation = id.generation
    · cases hiface : slot.interface with
      | none => simp [hslot, hgen, hiface] at h
      | some interface => simp [hiface, hgen]
    · simp [hslot, hgen] at h

def HeapObjectId.ident (id : HeapObjectId) : Ident 32 := ⟨id.index, id.generation⟩

def OwnedObject.payload {P : PlainKind → Type} : OwnedObject P → Payload P
  | .plain kind payload => .plain kind payload
  | .struct storage => .struct storage.view
  | .interface snapshot => .interface snapshot
  | .cell ty value => .cell ty value

def Payload.kind {P : PlainKind → Type} : Payload P → PayloadKind
  | .plain kind _ => .plain kind
  | .struct _ => .struct
  | .interface _ => .interface
  | .cell _ _ => .cell

/-- The writes of a payload in place. -/
inductive Write (P : PlainKind → Type) where
  | plain (kind : PlainKind) (edit : P kind → P kind)
  | cell (ty : ValueType) (value : HeapValue)
  | field (slot : Nat) (value : HeapValue)
  | scalar (slot : Nat) (ty : BuiltinType) (bits : BitVec 64)

namespace Write

variable {P : PlainKind → Type}

def kind : Write P → PayloadKind
  | .plain kind _ => .plain kind
  | .cell _ _ => .cell
  | .field _ _ | .scalar _ _ _ => .struct

/-- What a write makes of a payload, unless it is refused. -/
def apply : Write P → Payload P → Option (Payload P)
  | .plain kind edit, .plain kind' payload =>
    if h : kind' = kind then some (.plain kind (edit (h ▸ payload))) else none
  | .cell ty value, .cell ty' _ => if value.hasRepresentation ty ∧ ty' = ty then some (.cell ty value) else none
  | .field slot value, .struct view => (view.set slot value).map .struct
  | .scalar slot ty bits, .struct view => (view.setScalar slot ty bits).map .struct
  | _, _ => none

theorem apply_of_kind {w : Write P} {payload : Payload P} (h : payload.kind ≠ w.kind) : w.apply payload = none := by
  cases w <;> cases payload <;> simp_all [apply, kind, Payload.kind]

end Write

def GcHeap.write {P : PlainKind → Type} {D : Type} (heap : GcHeap P D) (id : HeapObjectId) :
    Write P → Option (GcHeap P D)
  | .plain kind edit => heap.editPlain id kind edit
  | .cell ty value => heap.cellSet id ty value
  | .field slot value => heap.structSetSlot id slot value
  | .scalar slot ty bits => heap.setStructScalar id slot ty bits

variable {d j : Nat} {e : Entry StructRecord} {slots : List ObjectSlot}

namespace GcHeap

open ObjectStorage

variable {P : PlainKind → Type} {D : Type} {heap : GcHeap P D}

/-- What a slot holds. -/
def contents (heap : GcHeap P D) (d : Nat) : Option (Payload P) := (heap.objects.locationAt d).bind heap.get

def generationAt (heap : GcHeap P D) (d : Nat) : Option (BitVec 32) :=
  (heap.objects.slots[d]?).map ObjectSlot.generation

theorem read_eq (heap : GcHeap P D) (id : HeapObjectId) : heap.read id =
    if id.owner = heap.owner ∧ heap.generationAt id.index = some id.generation then heap.contents id.index
    else none := by
  simp only [read, objectLocation, generationAt, contents, locationAt]
  by_cases hown : id.owner = heap.owner
  · obtain hslot | ⟨slot, hslot⟩ := eq_none_or_eq_some heap.objects.slots[id.index]?
    · simp [hown, hslot]
    · by_cases h : slot.generation = id.generation <;> simp [hown, hslot, h]
  · simp [hown]

/-- A row as an access shows it. -/
def present (bytes : List Byte) : (kind : PayloadKind) → Row P kind → Payload P
  | .plain kind, payload => .plain kind payload
  | .struct, record => .struct (viewOf bytes record)
  | .interface, row => Empty.elim row
  | .cell, cell => .cell cell.1 cell.2

theorem get_row (heap : GcHeap P D) {kind : PayloadKind} (hkind : kind ≠ .interface) (j : Nat) :
    heap.get ⟨kind, j⟩ =
      ((heap.objects.stores kind)[j]?).map fun e => present heap.objects.structBytes kind e.payload := by
  cases kind with
  | interface => exact absurd rfl hkind
  | plain kind => cases h : (heap.objects.stores (.plain kind))[j]? <;> simp only [get, h] <;> rfl
  | struct => cases h : (heap.objects.stores .struct)[j]? <;> simp only [get, structureAt, h] <;> rfl
  | cell => cases h : (heap.objects.stores .cell)[j]? <;> simp only [get, h] <;> rfl

theorem get_interface (heap : GcHeap P D) (j : Nat) :
    heap.get ⟨.interface, j⟩ = (heap.interfaces.directoryBinding j).map .interface := rfl

variable {location : PayloadLocation}

/-- Rows and bytes at the end leave what was there before. -/
theorem get_grow (h : Consistent heap.objects) {grown : GcHeap P D}
    (hd : heap.objects.locationAt d = some location) (hifcs : grown.interfaces = heap.interfaces)
    (hstrs : ∀ kind, heap.objects.stores kind <+: grown.objects.stores kind)
    (hbyt : heap.objects.structBytes <+: grown.objects.structBytes) :
    grown.get location = heap.get location := by
  obtain ⟨kind, j⟩ := location
  by_cases hkind : kind = .interface
  · subst hkind
    rw [get_interface, get_interface, hifcs]
  · obtain ⟨e, he, -⟩ := h.row hkind hd
    obtain ⟨added, hadded⟩ := hstrs kind
    have hlt := (List.getElem?_eq_some_iff.mp he).1
    rw [get_row _ hkind, get_row _ hkind, ← hadded, List.getElem?_append_left hlt, he]
    refine congrArg some ?_
    cases kind with
    | interface => exact absurd rfl hkind
    | plain kind => rfl
    | cell => rfl
    | struct =>
      obtain ⟨bytes, hbyt⟩ := hbyt
      have hrng := (h.tiled.range he).2
      refine congrArg Payload.struct (congrArg (StructView.mk _) ?_)
      rw [← hbyt, List.drop_append_of_le_length (by omega),
        List.take_append_of_le_length (by rw [List.length_drop]; omega)]

variable {object : OwnedObject P} {reserve : Nat → Bool}

variable {s' : ObjectStorage P} {heap' : GcHeap P D}

/-- The new payload is at the location of the insertion. -/
theorem get_insert
    (hins : heap.objects.insert reserve d object = some (s', location))
    (hlive : ∀ snapshot, object = .interface snapshot → (heap.interfaces.get snapshot).isSome) :
    get { heap with objects := { s' with slots } } location = some object.payload := by
  cases object with
  | plain kind payload =>
    cases (ite_none_left_eq_some.mp hins).2
    rw [get_row _ (by simp)]
    simp only [update_self, getElem?_concat_length]
    rfl
  | struct storage =>
    cases (ite_none_left_eq_some.mp hins).2
    obtain ⟨hdesc, hlen⟩ := StructView.setAll_sameShape storage.encodes
    have hlen : storage.view.bytes.length = storage.description.size := by simpa using hlen
    rw [get_row _ (by simp)]
    simp only [update_self, getElem?_concat_length]
    refine congrArg some (congrArg Payload.struct ?_)
    simp only [viewOf, drop_left, ← hlen, take_length]
    exact congrArg (StructView.mk · storage.view.bytes) hdesc.symm
  | interface snapshot =>
    cases (ite_none_left_eq_some.mp hins).2
    rw [get_interface, InterfaceStore.directoryBinding_of_get (hlive snapshot rfl)]
    rfl
  | cell ty value =>
    cases (ite_none_left_eq_some.mp hins).2
    rw [get_row _ (by simp)]
    simp only [update_self, getElem?_concat_length]
    rfl

/-- The rest is as it was, and the slot of the row has the new payload. -/
theorem contents_insert (h : Consistent heap.objects)
    (hins : heap.objects.insert reserve d object = some (s', location))
    (hsl : ∀ i, locationIn slots i = if i = d then some location else heap.objects.locationAt i)
    (hlive : ∀ snapshot, object = .interface snapshot → (heap.interfaces.get snapshot).isSome) (i : Nat) :
    contents { heap with objects := { s' with slots } } i =
      if i = d then some object.payload else heap.contents i := by
  have hloc : locationAt { s' with slots } i =
      if i = d then some location else heap.objects.locationAt i := hsl i
  obtain ⟨hstrs, hbyt⟩ := insert_grows hins
  by_cases hi : i = d
  · simp only [contents, hloc, if_pos hi, bind_some]
    exact get_insert hins hlive
  · simp only [contents, hloc, if_neg hi]
    cases hold : heap.objects.locationAt i with
    | none => rfl
    | some old => exact get_grow h hold rfl hstrs hbyt

/-! ## The heap as an arena -/

def arena (heap : GcHeap P D) : Arena 32 (Payload P) :=
  ⟨heap.objects.slots.map ObjectSlot.generation, heap.contents, heap.free⟩

/-- What every operation keeps. -/
structure Sound (heap : GcHeap P D) : Prop where
  consistent : Consistent heap.objects
  /-- Every location can be read. -/
  resolves : ∀ i, (heap.objects.locationAt i).isSome → (heap.contents i).isSome
  snapshots : heap.interfaces.FreeVacant
  capacity : heap.objects.slots.length ≤ slotLimit

theorem Sound.empty (owner : BitVec 32) : Sound (empty owner : GcHeap P D) where
  consistent := Consistent.empty
  resolves i hi := by simp [GcHeap.empty, locationAt, ObjectStorage.empty] at hi
  snapshots := ⟨.nil, fun i hi => by cases hi⟩
  capacity := Nat.zero_le _

theorem Sound.vacant (h : Sound heap) {i : Nat} (hi : heap.contents i = none) : heap.objects.locationAt i = none := by
  by_contra hsome
  have := h.resolves i (isSome_iff_ne_none.mpr hsome)
  rw [hi] at this
  cases this

variable {id : HeapObjectId}

theorem read_arena (heap : GcHeap P D) (hown : id.owner = heap.owner) :
    heap.read id = heap.arena.read id.ident := by
  rw [read_eq, Arena.read]
  simp only [hown, true_and, arena, getElem?_map, generationAt]
  rfl

/-- A new object, for a slot that is vacant. -/
theorem Sound.insert (h : Sound heap) (hd : heap.objects.locationAt d = none)
    {free : List Nat} (hins : heap.objects.insert reserve d object = some (s', location))
    (hsl : ∀ i, locationIn slots i = if i = d then some location else heap.objects.locationAt i)
    (hcap : slots.length ≤ slotLimit)
    (hlive : ∀ snapshot, object = .interface snapshot → (heap.interfaces.get snapshot).isSome) :
    Sound { heap with objects := { s' with slots }, free } where
  consistent := h.consistent.insert hd hins hsl
  resolves i hi := by
    have hcont := contents_insert h.consistent hins hsl hlive i
    have hloc : locationAt { s' with slots } i = _ := hsl i
    change (contents { heap with objects := { s' with slots } } i).isSome
    rw [hcont]
    change (locationAt { s' with slots } i).isSome at hi
    rw [hloc] at hi
    split
    · rfl
    · rw [if_neg ‹_›] at hi
      exact h.resolves i hi
  snapshots := h.snapshots
  capacity := hcap

theorem allocObject_refines (h : Sound heap)
    (hfree : ∀ i ∈ heap.free, i < heap.objects.slots.length ∧ heap.contents i = none)
    (hlive : ∀ snapshot, object = .interface snapshot → (heap.interfaces.get snapshot).isSome)
    (halloc : heap.allocObject reserve object = some (heap', id)) :
    Sound heap' ∧ heap'.owner = heap.owner ∧ id.owner = heap.owner ∧
      heap.arena.alloc object.payload = (heap'.arena, id.ident) := by
  simp only [allocObject, bind_eq_bind] at halloc
  split at halloc
  · cases halloc
  rename_i hlim
  split at halloc
  · cases halloc
  obtain ⟨⟨s', location⟩, hins, halloc⟩ := bind_eq_some_iff.mp halloc
  cases hlist : heap.free with
  | nil =>
    -- a slot at the end
    simp only [hlist, head?_nil, getD_none, if_true] at halloc hins hlim
    cases halloc
    have hvac : heap.objects.locationAt heap.objects.slots.length = none := by simp [locationAt]
    have hsl := locationIn_append heap.objects.slots ⟨0, some location⟩
    have hidx : (BitVec.ofNat 32 heap.objects.slots.length).toNat = heap.objects.slots.length := by
      simp only [slotLimit] at hlim
      rw [BitVec.toNat_ofNat, Nat.mod_eq_of_lt (by omega)]
    refine ⟨h.insert hvac hins hsl (by simp; omega) hlive, rfl, rfl, ?_⟩
    have hcont := contents_insert h.consistent hins hsl hlive
    simp only [Arena.alloc, arena, hlist, HeapObjectId.ident, HeapObjectId.index, hidx]
    refine Prod.ext (congrArg₂ (fun gs c => Arena.mk gs c []) (by simp) ?_) (by simp)
    funext i
    rw [length_map, update_apply]
    exact (hcont i).symm
  | cons i free =>
    obtain ⟨hlt, hvac⟩ := hfree i (by simp [hlist])
    have hslot := getElem?_eq_getElem hlt
    simp only [hlist, head?_cons, getD_some, if_neg hlt.ne, hslot, bind_some,
      tail_cons] at halloc hins
    cases halloc
    have hsl := locationIn_set hlt { heap.objects.slots[i] with location := some location }
    have hidx : (BitVec.ofNat 32 i).toNat = i := by
      have := h.capacity
      simp only [slotLimit] at this
      rw [BitVec.toNat_ofNat, Nat.mod_eq_of_lt (by omega)]
    refine ⟨h.insert (h.vacant hvac) hins hsl (by simpa using h.capacity) hlive, rfl, rfl, ?_⟩
    have hcont := contents_insert h.consistent hins hsl hlive
    simp only [Arena.alloc, arena, hlist, HeapObjectId.ident, HeapObjectId.index, hidx]
    refine Prod.ext (congrArg₂ (fun gs c => Arena.mk gs c free) ?_ ?_) (by simp [hslot])
    · exact (generations_set hslot _).symm
    · funext j
      rw [update_apply]
      exact (hcont j).symm

/-! ## Writes -/

/-- Only the slot of the edited row changes. -/
theorem contents_editRow (h : Consistent heap.objects) {kind : PayloadKind} (hkind : kind ≠ .interface) {d j : Nat}
    (hd : heap.objects.locationAt d = some ⟨kind, j⟩) (edit : Row P kind → Row P kind) (i : Nat) :
    (heap.editRow kind j edit).contents i =
      if i = d then ((heap.objects.stores kind)[j]?).map fun e =>
        present heap.objects.structBytes kind (edit e.payload)
      else heap.contents i := by
  have hloc : (heap.editRow kind j edit).objects.locationAt i = heap.objects.locationAt i := rfl
  by_cases hi : i = d
  · subst hi
    simp only [contents, hloc, hd, Option.bind_some, if_pos, get_row _ hkind]
    simp only [editRow, update_self, getElem?_modify, if_true, Option.map_eq_map,
      Option.map_map]
    rfl
  · simp only [contents, hloc, if_neg hi]
    cases hold : heap.objects.locationAt i with
    | none => rfl
    | some old =>
      obtain ⟨k, j'⟩ := old
      simp only [Option.bind_some]
      by_cases hk : k = .interface
      · subst hk
        rfl
      · rw [get_row _ hk, get_row _ hk]
        by_cases hkk : k = kind
        · subst hkk
          -- two slots of one row are one slot
          have hne : j ≠ j' := by
            rintro rfl
            obtain ⟨e, he, hed⟩ := h.row hk hd
            obtain ⟨e', he', hed'⟩ := h.row hk hold
            rw [he] at he'
            cases he'
            exact hi (hed'.symm.trans hed)
          simp only [editRow, update_self, getElem?_modify, if_neg hne]
          simp
        · simp only [editRow, update_of_ne hkk]

theorem Sound.editRow (h : Sound heap) {kind : PayloadKind} (hkind : kind ≠ .interface) (hstruct : kind ≠ .struct)
    {d j : Nat} (hd : heap.objects.locationAt d = some ⟨kind, j⟩) (edit : Row P kind → Row P kind) :
    Sound (heap.editRow kind j edit) where
  consistent := by
    refine ⟨fun k hk => ?_, h.consistent.nodup, h.consistent.listed, ?_⟩
    · by_cases hkk : k = kind
      · subst hkk
        simp only [GcHeap.editRow, update_self]
        exact (h.consistent.indexed k hk).modify j edit
      · simp only [GcHeap.editRow, update_of_ne hkk]
        exact h.consistent.indexed k hk
    · simp only [GcHeap.editRow, update_of_ne (Ne.symm hstruct)]
      exact h.consistent.tiled
  resolves i hi := by
    have hold := h.resolves i hi
    rw [contents_editRow h.consistent hkind hd]
    split
    · obtain ⟨e, he, -⟩ := h.consistent.row hkind hd
      simp [he]
    · exact hold
  snapshots := h.snapshots
  capacity := h.capacity

/-- The bytes of one struct. -/
def setBytes (heap : GcHeap P D) (record : StructRecord) (view : StructView) : GcHeap P D :=
  { heap with objects := { heap.objects with
    structBytes := overwrite heap.objects.structBytes record.offset view.bytes } }

/-- Only the struct that was written changes. -/
theorem contents_setBytes (h : Consistent heap.objects) {d j : Nat}
    (hd : heap.objects.locationAt d = some ⟨.struct, j⟩) (he : (heap.objects.stores .struct)[j]? = some e)
    (hdesc : view.description = e.payload.description)
    (hlen : view.bytes.length = e.payload.description.size) (i : Nat) :
    (heap.setBytes e.payload view).contents i = if i = d then some (.struct view) else heap.contents i := by
  have hrng := (h.tiled.range he).2
  have hloc : (heap.setBytes e.payload view).objects.locationAt i = heap.objects.locationAt i := rfl
  by_cases hi : i = d
  · subst hi
    simp only [contents, hloc, hd, bind_some, if_pos, get_row _ (show PayloadKind.struct ≠ .interface by simp)]
    have hsto : (heap.setBytes e.payload view).objects.stores .struct = heap.objects.stores .struct := rfl
    rw [hsto, he]
    refine congrArg some (congrArg Payload.struct ?_)
    have hslc : slice (overwrite heap.objects.structBytes e.payload.offset view.bytes) e.payload.offset
        view.bytes.length = view.bytes := slice_overwrite (by omega)
    rw [hlen] at hslc
    obtain ⟨description, bytes⟩ := view
    obtain rfl := hdesc
    exact congrArg (StructView.mk _) hslc
  · simp only [contents, hloc, if_neg hi]
    cases hold : heap.objects.locationAt i with
    | none => rfl
    | some old =>
      obtain ⟨k, j'⟩ := old
      simp only [bind_some]
      cases k with
      | plain kind => rfl
      | interface => rfl
      | cell => rfl
      | struct =>
        have hstruct : PayloadKind.struct ≠ .interface := by simp
        obtain ⟨e', he', hed'⟩ := h.row hstruct hold
        have hne : j' ≠ j := by
          rintro rfl
          obtain ⟨e'', he'', hed⟩ := h.row hstruct hd
          rw [he'] at he''
          cases he''
          exact hi (hed'.symm.trans hed)
        rw [get_row _ hstruct, get_row _ hstruct]
        have hsto : (heap.setBytes e.payload view).objects.stores .struct = heap.objects.stores .struct := rfl
        rw [hsto, he']
        refine congrArg some (congrArg Payload.struct (congrArg (StructView.mk _) ?_))
        apply slice_overwrite_apart (by omega)
        rcases Nat.lt_or_gt_of_ne hne with hlt | hgt
        · exact .inl (h.tiled.apart he' he hlt)
        · rw [hlen]
          exact .inr (h.tiled.apart he he' hgt)

theorem Sound.setBytes (h : Sound heap) {d j : Nat}
    (hd : heap.objects.locationAt d = some ⟨.struct, j⟩) (he : (heap.objects.stores .struct)[j]? = some e)
    (hdesc : view.description = e.payload.description)
    (hlen : view.bytes.length = e.payload.description.size) : Sound (heap.setBytes e.payload view) where
  consistent := by
    have hrng := (h.consistent.tiled.range he).2
    refine ⟨h.consistent.indexed, h.consistent.nodup, h.consistent.listed, ?_⟩
    simp only [GcHeap.setBytes]
    rw [overwrite_length (by omega)]
    exact h.consistent.tiled
  resolves i hi := by
    have hold := h.resolves i hi
    rw [contents_setBytes h.consistent hd he hdesc hlen]
    split
    · rfl
    · exact hold
  snapshots := h.snapshots
  capacity := h.capacity


theorem locationAt_of_objectLocation (h : heap.objectLocation id = some location) :
    heap.objects.locationAt id.index = some location := by
  unfold objectLocation at h
  split at h
  · cases h
  · obtain ⟨slot, hslot, h⟩ := bind_eq_some_iff.mp h
    split at h
    · simp [locationAt, hslot, h]
    · cases h

theorem kind_of_get {payload : Payload P} (h : heap.get location = some payload) :
    payload.kind = location.kind := by
  obtain ⟨kind, j⟩ := location
  by_cases hkind : kind = .interface
  · subst hkind
    rw [get_interface] at h
    obtain ⟨snapshot, -, rfl⟩ := map_eq_some_iff.mp h
    rfl
  · rw [get_row _ hkind] at h
    obtain ⟨e, -, rfl⟩ := map_eq_some_iff.mp h
    cases kind with
    | interface => exact absurd rfl hkind
    | plain kind => rfl
    | struct => rfl
    | cell => rfl

theorem arena_write {payload : Payload P} (hsl : heap'.objects.slots = heap.objects.slots)
    (hfree : heap'.free = heap.free)
    (hcont : ∀ i, heap'.contents i = if i = d then some payload else heap.contents i) :
    heap'.arena = heap.arena.write d payload := by
  simp only [arena, Arena.write, hsl, hfree]
  congr 1
  funext i
  rw [hcont, update_apply]

/-- A write comes to the expected payload of an identity, or is refused as expected. -/
def Wrote (heap : GcHeap P D) (id : HeapObjectId) (expected : Option (Payload P)) : Option (GcHeap P D) → Prop
  | none => expected = none
  | some heap' => ∃ payload, expected = some payload ∧ Sound heap' ∧ heap'.owner = heap.owner ∧
      heap'.arena = heap.arena.write id.index payload

theorem Sound.wrote_row (h : Sound heap) {kind : PayloadKind} (hkind : kind ≠ .interface)
    (hstruct : kind ≠ .struct) {e : Entry (Row P kind)}
    (hd : heap.objects.locationAt id.index = some ⟨kind, j⟩) (he : (heap.objects.stores kind)[j]? = some e)
    (edit : Row P kind → Row P kind) :
    heap.Wrote id (some (present heap.objects.structBytes kind (edit e.payload))) (some
      (heap.editRow kind j edit)) := by
  refine ⟨_, rfl, h.editRow hkind hstruct hd edit, rfl, arena_write rfl rfl fun i => ?_⟩
  rw [contents_editRow h.consistent hkind hd, he]
  rfl

theorem editPlain_refines (h : Sound heap) {kind : PlainKind}
    (hloc : heap.objectLocation id = some ⟨.plain kind, j⟩) (edit : P kind → P kind) :
    heap.Wrote id ((heap.get ⟨.plain kind, j⟩).bind (Write.plain kind edit).apply) (heap.editPlain id kind edit) := by
  have hkind : PayloadKind.plain kind ≠ .interface := by simp
  have hd := locationAt_of_objectLocation hloc
  obtain ⟨e, he, -⟩ := h.consistent.row hkind hd
  have hwrt : heap.editPlain id kind edit = some (heap.editRow (.plain kind) j edit) := by
    simp [editPlain, hloc]
  have happly : (heap.get ⟨.plain kind, j⟩).bind (Write.plain kind edit).apply =
      some (.plain kind (edit e.payload)) := by
    rw [get_row _ hkind, he]
    simp [present, Write.apply]
  rw [hwrt, happly]
  exact h.wrote_row hkind (by simp) hd he edit

theorem cellSet_refines (h : Sound heap)
    (hloc : heap.objectLocation id = some ⟨.cell, j⟩) (ty : ValueType) (value : HeapValue) :
    heap.Wrote id ((heap.get ⟨.cell, j⟩).bind (Write.cell ty value).apply) (heap.cellSet id ty value) := by
  have hkind : PayloadKind.cell ≠ .interface := by simp
  have hd := locationAt_of_objectLocation hloc
  obtain ⟨e, he, -⟩ := h.consistent.row hkind hd
  have happly : (heap.get ⟨.cell, j⟩).bind (Write.cell ty value).apply =
      if value.hasRepresentation ty ∧ e.payload.1 = ty then some (.cell ty value) else none := by
    rw [get_row _ hkind, he]
    rfl
  rw [happly]
  by_cases hval : value.hasRepresentation ty = true
  · by_cases hty : e.payload.1 = ty
    · have hwrt : heap.cellSet id ty value = some (heap.editRow .cell j fun _ => (ty, value)) := by
        simp [cellSet, hloc, hval, he, hty]
      rw [hwrt, if_pos ⟨hval, hty⟩]
      exact h.wrote_row hkind (by simp) hd he fun _ => (ty, value)
    · have hwrt : heap.cellSet id ty value = none := by simp [cellSet, hloc, hval, he, hty]
      rw [hwrt, if_neg (by simp [hty])]
      rfl
  · have hwrt : heap.cellSet id ty value = none := by simp [cellSet, hval]
    rw [hwrt, if_neg (by simp [hval])]
    rfl

/-- An edit of the view of a struct that keeps its shape. -/
theorem editStruct_refines (h : Sound heap)
    (hloc : heap.objectLocation id = some ⟨.struct, j⟩) {edit : StructView → Option StructView}
    (hshp : ∀ {view written}, edit view = some written → view.SameShape written) :
    ∃ view, heap.get ⟨.struct, j⟩ = some (.struct view) ∧
      heap.Wrote id ((edit view).map .struct) (heap.editStruct id edit) := by
  have hd := locationAt_of_objectLocation hloc
  obtain ⟨e, he, -⟩ := h.consistent.row (by simp) hd
  have hview : heap.objects.structureAt j = some (viewOf heap.objects.structBytes e.payload) := by
    simp [structureAt, he]
  have hsize : (viewOf heap.objects.structBytes e.payload).bytes.length = e.payload.description.size := by
    have := (h.consistent.tiled.range he).2
    simp only [viewOf, length_take, length_drop]
    omega
  refine ⟨viewOf heap.objects.structBytes e.payload, by simp [get, hview], ?_⟩
  cases hedit : edit (viewOf heap.objects.structBytes e.payload) with
  | none =>
    have hwrt : heap.editStruct id edit = none := by simp [editStruct, hloc, he, hview, hedit]
    rw [hwrt]
    rfl
  | some written =>
    obtain ⟨hdesc, hlen⟩ := hshp hedit
    rw [hsize] at hlen
    have hwrt : heap.editStruct id edit = some (heap.setBytes e.payload written) := by
      simp [editStruct, hloc, he, hview, hedit, setBytes]
    rw [hwrt]
    exact ⟨.struct written, rfl, h.setBytes hd he hdesc hlen, rfl,
      arena_write rfl rfl (contents_setBytes h.consistent hd he hdesc hlen)⟩

/-- A write does to the payload of an identity what it does to a payload alone, and nothing else. -/
theorem write_refines (h : Sound heap) (id : HeapObjectId) (w : Write P) :
    heap.Wrote id ((heap.read id).bind w.apply) (heap.write id w) := by
  cases hloc : heap.objectLocation id with
  | none =>
    have hread : heap.read id = none := by simp [read, hloc]
    have hwrt : heap.write id w = none := by
      cases w <;> simp [write, editPlain, cellSet, structSetSlot, setStructScalar, editStruct, hloc]
    rw [hwrt, hread]
    rfl
  | some location =>
    obtain ⟨kind, j⟩ := location
    have hread : heap.read id = heap.get ⟨kind, j⟩ := by simp [read, hloc]
    rw [hread]
    by_cases hkind : kind = w.kind
    · cases w with
      | plain kind' edit =>
        obtain rfl : kind = .plain kind' := hkind
        exact editPlain_refines h hloc edit
      | cell ty value =>
        obtain rfl : kind = .cell := hkind
        exact cellSet_refines h hloc ty value
      | field slot value =>
        obtain rfl : kind = .struct := hkind
        obtain ⟨view, hget, hedit⟩ := editStruct_refines h hloc StructView.set_sameShape
        rw [hget]
        exact hedit
      | scalar slot ty bits =>
        obtain rfl : kind = .struct := hkind
        obtain ⟨view, hget, hedit⟩ := editStruct_refines h hloc StructView.setScalar_sameShape
        rw [hget]
        exact hedit
    · have hnone : (heap.get ⟨kind, j⟩).bind w.apply = none := by
        rw [bind_eq_none_iff]
        intro payload hpay
        exact Write.apply_of_kind (by rwa [kind_of_get hpay])
      have hwrt : heap.write id w = none := by
        cases w <;> simp_all [write, editPlain, cellSet, structSetSlot, setStructScalar, editStruct, Write.kind]
      rw [hwrt, hnone]
      rfl

end GcHeap

end Kagari.Runtime
