import Kagari.Runtime.SweepSound

/-!
# The heap over whole runs

Any sequence of allocations, writes, extractions and collections, beside the history of what the identities
stand for. Refused operations leave the heap as it was.
-/

namespace Kagari.Runtime

open Lib

inductive HeapOp (P : PlainKind → Type) (D : Type) where
  | alloc (reserve : Nat → Bool) (object : OwnedObject P)
  | snapshot (reserve : Bool) (interface : D)
  | write (id : HeapObjectId) (w : Write P)
  | take (id : HeapObjectId)
  | collect (live : HeapObjectId → Bool) (held : List InterfaceSnapshotId)

/-- A heap and the history of its identities. -/
structure Recorded (P : PlainKind → Type) (D : Type) where
  heap : GcHeap P D
  history : History 32 (Payload P)

/-- The identity of a heap that an index and a generation stand for. -/
def identOf (owner : BitVec 32) (id : Ident 32) : HeapObjectId := ⟨owner, BitVec.ofNat 32 id.index, id.generation⟩

variable {id : Ident 32}

namespace Recorded

variable {P : PlainKind → Type} {D : Type}

def empty (owner : BitVec 32) : Recorded P D := ⟨.empty owner, .empty⟩

/-- Wrappers are allocated for live snapshots only. -/
def allocate (heap : GcHeap P D) (reserve : Nat → Bool) : OwnedObject P → Option (GcHeap P D × HeapObjectId)
  | .interface snapshot => heap.allocInterface reserve snapshot
  | object => heap.allocObject reserve object

def step (r : Recorded P D) : HeapOp P D → Recorded P D
  | .alloc reserve object =>
    match allocate r.heap reserve object with
    | none => r
    | some (heap, id) => ⟨heap, r.history.issue id.ident object.payload⟩
  | .snapshot reserve interface =>
    match r.heap.interfaces.insert reserve interface with
    | none => r
    | some (interfaces, _) => { r with heap := { r.heap with interfaces } }
  | .write id w =>
    match r.heap.write id w with
    | none => r
    | some heap => ⟨heap, match (r.history.last id.ident).bind w.apply with
        | none => r.history
        | some payload => r.history.write id.ident payload⟩
  | .take id =>
    match r.heap.takeNative id with
    | none => r
    | some heap => ⟨heap, r.history.retire id.ident⟩
  | .collect live held =>
    ⟨r.heap.sweep live held, { r.history with
      last := fun id => if live (identOf r.heap.owner id) then r.history.last id else none }⟩

attribute [local simp] step

def run (owner : BitVec 32) (ops : List (HeapOp P D)) : Recorded P D := ops.foldl step (empty owner)

/-- The heap is sound, and stands for its history. -/
structure Faithful (owner : BitVec 32) (r : Recorded P D) : Prop where
  owner : r.heap.owner = owner
  sound : r.heap.Sound
  tracks : Tracks r.heap.arena r.history

variable {owner : BitVec 32} {r : Recorded P D}

theorem Faithful.empty (owner : BitVec 32) : Faithful owner (empty owner : Recorded P D) where
  owner := rfl
  sound := .empty owner
  tracks := .empty

/-! ## Steps -/

theorem Faithful.alloc (h : Faithful owner r) (reserve : Nat → Bool) (object : OwnedObject P) :
    Faithful owner (r.step (.alloc reserve object)) := by
  have hfree : ∀ i ∈ r.heap.free, i < r.heap.objects.slots.length ∧ r.heap.contents i = none := by
    intro i hi
    obtain ⟨hlt, hvac, -⟩ := (h.tracks.free i).mp hi
    exact ⟨by simpa [GcHeap.arena] using hlt, hvac⟩
  simp only [step]
  cases hallocate : allocate r.heap reserve object with
  | none => exact h
  | some result =>
    obtain ⟨heap, id⟩ := result
    have halloc : r.heap.allocObject reserve object = some (heap, id) ∧
        ∀ snapshot, object = .interface snapshot → (r.heap.interfaces.get snapshot).isSome := by
      cases object with
      | interface snapshot =>
        obtain ⟨interface, hget, hallocate⟩ := Option.bind_eq_some_iff.mp hallocate
        split at hallocate
        · cases hallocate
        · refine ⟨hallocate, fun snapshot' heq => ?_⟩
          obtain rfl := OwnedObject.interface.inj heq
          rw [hget]
          rfl
      | plain kind payload => exact ⟨hallocate, fun _ heq => by cases heq⟩
      | struct storage => exact ⟨hallocate, fun _ heq => by cases heq⟩
      | cell ty value => exact ⟨hallocate, fun _ heq => by cases heq⟩
    obtain ⟨hsnd, hown, -, hrfn⟩ := GcHeap.allocObject_refines h.sound hfree halloc.2 halloc.1
    have htrk := h.tracks.alloc object.payload
    rw [hrfn] at htrk
    exact ⟨hown.trans h.owner, hsnd, htrk⟩

theorem Faithful.snapshot (h : Faithful owner r) (reserve : Bool) (interface : D) :
    Faithful owner (r.step (.snapshot reserve interface)) := by
  simp only [step]
  cases hins : r.heap.interfaces.insert reserve interface with
  | none => exact h
  | some result =>
    obtain ⟨interfaces, id⟩ := result
    obtain ⟨hvac, hkept⟩ := InterfaceStore.insert_spec h.sound.snapshots hins
    obtain ⟨hsnd, hcont⟩ := h.sound.snapshots_kept hvac fun i j hloc => by
      have hsome := h.sound.resolves i (by rw [hloc]; rfl)
      rw [GcHeap.contents, hloc, Option.bind_some, GcHeap.get_interface, Option.isSome_map] at hsome
      obtain ⟨bound, hbnd⟩ := Option.isSome_iff_exists.mp hsome
      rw [hbnd, hkept hbnd]
    refine ⟨h.owner, hsnd, ?_⟩
    have harena : GcHeap.arena { r.heap with interfaces } = r.heap.arena :=
      congrArg (fun contents => Arena.mk _ contents _) (funext hcont)
    rw [harena]
    exact h.tracks

/-- A read is what the history has. -/
theorem Faithful.read (h : Faithful owner r) (id : HeapObjectId) :
    r.heap.read id = if id.owner = owner then r.history.last id.ident else none := by
  split
  · rename_i hown
    rw [GcHeap.read_arena _ (hown.trans h.owner.symm), h.tracks.reads]
  · rename_i hown
    rw [GcHeap.read_eq, if_neg]
    rw [h.owner]
    exact fun hboth => hown hboth.1

theorem Faithful.write (h : Faithful owner r) (id : HeapObjectId) (w : Write P) :
    Faithful owner (r.step (.write id w)) := by
  have hwrote := GcHeap.write_refines h.sound id w
  rw [h.read] at hwrote
  simp only [step]
  cases hwrt : r.heap.write id w with
  | none => exact h
  | some heap =>
    rw [hwrt] at hwrote
    obtain ⟨payload, hpay, hsnd, hown, harena⟩ := hwrote
    split at hpay
    · simp only [hpay]
      obtain ⟨old, hold, -⟩ := Option.bind_eq_some_iff.mp hpay
      refine ⟨hown.trans h.owner, hsnd, ?_⟩
      rw [harena]
      exact h.tracks.write (by rw [hold]; rfl) payload
    · cases hpay

theorem Faithful.take (h : Faithful owner r) (id : HeapObjectId) : Faithful owner (r.step (.take id)) := by
  simp only [step]
  cases htake : r.heap.takeNative id with
  | none => exact h
  | some heap =>
    obtain ⟨hsnd, hown, harena, payload, hread⟩ := GcHeap.takeNative_refines h.sound htake
    rw [h.read] at hread
    split at hread
    · refine ⟨hown.trans h.owner, hsnd, ?_⟩
      rw [harena]
      exact h.tracks.retire (by rw [hread]; rfl)
    · cases hread

theorem Faithful.collect (h : Faithful owner r) (live : HeapObjectId → Bool) (held : List InterfaceSnapshotId) :
    Faithful owner (r.step (.collect live held)) := by
  obtain ⟨hsnd, hown, harena⟩ := GcHeap.sweep_refines h.sound live held
  refine ⟨hown.trans h.owner, hsnd, ?_⟩
  simp only [step, harena]
  have hdead := GcHeap.mem_deadDirectories h.sound.consistent live
  have htrk := h.tracks.retireAll (r.heap.deadDirectories live)
    (GcHeap.nodup_deadDirectories h.sound.consistent live) fun i hi => h.sound.resolves i ((hdead i).mp hi).1
  have hhist : (fun id : Ident 32 => if id.index ∈ r.heap.deadDirectories live then none else r.history.last id) =
      fun id => if live (identOf r.heap.owner id) then r.history.last id else none := by
    funext id
    cases hlast : r.history.last id with
    | none => simp
    | some payload =>
      obtain ⟨hgen, hcont, -⟩ := h.tracks.of_read ((h.tracks.reads id).trans hlast)
      have hidty : r.heap.identityAt id.index = identOf r.heap.owner id := by
        have hslot : (r.heap.objects.slots[id.index]?).map ObjectSlot.generation = some id.generation := by
          rw [← hgen, GcHeap.arena, List.getElem?_map]
        rw [GcHeap.identityAt, hslot]
        rfl
      have hlocd : (r.heap.objects.locationAt id.index).isSome := by
        by_contra hnone
        rw [Option.not_isSome_iff_eq_none] at hnone
        have hvac : r.heap.contents id.index = none := by rw [GcHeap.contents, hnone]; rfl
        rw [show r.heap.arena.contents id.index = r.heap.contents id.index from rfl, hvac] at hcont
        cases hcont
      rw [← hidty]
      cases hlive : live (r.heap.identityAt id.index) with
      | true => simp [hdead, hlive]
      | false => simp [hdead, hlive, hlocd]
  rw [hhist] at htrk
  exact htrk

theorem Faithful.step (h : Faithful owner r) (op : HeapOp P D) : Faithful owner (r.step op) := by
  cases op with
  | alloc reserve object => exact h.alloc reserve object
  | snapshot reserve interface => exact h.snapshot reserve interface
  | write id w => exact h.write id w
  | take id => exact h.take id
  | collect live held => exact h.collect live held

variable (ops : List (HeapOp P D))

theorem Faithful.foldl : ∀ {r : Recorded P D}, Faithful owner r →
    Faithful owner (ops.foldl Recorded.step r) := by
  induction ops with
  | nil => exact fun h => h
  | cons op ops ih => exact fun h => ih (h.step op)

theorem faithful_run (owner : BitVec 32) (ops : List (HeapOp P D)) : Faithful owner (run owner ops) :=
  Faithful.foldl ops (.empty owner)

/-! ## Identities that were retired -/

theorem issued_step (r : Recorded P D) (op : HeapOp P D) (hid : id ∈ r.history.issued) :
    id ∈ (r.step op).history.issued := by
  cases op with
  | alloc reserve object =>
    simp only [Recorded.step]
    split
    · exact hid
    · exact List.mem_cons_of_mem _ hid
  | snapshot reserve interface =>
    simp only [Recorded.step]
    split <;> exact hid
  | write id w =>
    simp only [Recorded.step]
    split
    · exact hid
    · simp only
      split <;> exact hid
  | take id =>
    simp only [Recorded.step]
    split <;> exact hid
  | collect live held => exact hid

/-- An identity that was given out and stands for nothing stays so. -/
theorem Faithful.retired_step (h : Faithful owner r) (op : HeapOp P D)
    (hid : id ∈ r.history.issued) (hnone : r.history.last id = none) : (r.step op).history.last id = none := by
  have hstep := h.step op
  cases op with
  | alloc reserve object =>
    simp only [Recorded.step] at hstep ⊢
    split
    · exact hnone
    · rename_i heap id' hallocate
      rw [hallocate] at hstep
      have hne : id ≠ id'.ident := by
        rintro rfl
        exact (List.nodup_cons.mp hstep.tracks.nodup).1 hid
      simpa [History.issue, Function.update_of_ne hne] using hnone
  | snapshot reserve interface =>
    simp only [Recorded.step]
    split <;> exact hnone
  | write id' w =>
    simp only [Recorded.step]
    split
    · exact hnone
    · simp only
      split
      · exact hnone
      · rename_i payload hpay
        have hne : id ≠ id'.ident := by
          rintro rfl
          rw [hnone] at hpay
          cases hpay
        simpa [History.write, Function.update_of_ne hne] using hnone
  | take id' =>
    simp only [Recorded.step]
    split
    · exact hnone
    · by_cases hne : id = id'.ident
      · simp [History.retire, hne]
      · simpa [History.retire, Function.update_of_ne hne] using hnone
  | collect live held => simp [Recorded.step, hnone]

theorem Faithful.retired_foldl : ∀ {r : Recorded P D}, Faithful owner r →
    ∀ {id : Ident 32}, id ∈ r.history.issued → r.history.last id = none →
      (ops.foldl Recorded.step r).history.last id = none := by
  induction ops with
  | nil => exact fun _ _ _ hnone => hnone
  | cons op ops ih =>
    intro r h id hid hnone
    exact ih (h.step op) (issued_step r op hid) (h.retired_step op hid hnone)

end Recorded

/-- The directory over any run of allocations, writes, extractions and collections: locations and rows agree,
reads give what was last written, an identity that was retired or is of an older generation is never resolved
again, and the free list has each slot that is vacant and still has an identity to give, once. -/
theorem directory_consistent {P : PlainKind → Type} {D : Type} (owner : BitVec 32) (ops : List (HeapOp P D)) :
    let r := Recorded.run owner ops
    r.heap.objects.Consistent ∧
      (∀ id, r.heap.read id = if id.owner = owner then r.history.last id.ident else none) ∧
      r.history.issued.Nodup ∧
      (∀ id slot, r.heap.objects.slots[id.index]? = some slot → id.generation < slot.generation →
        r.heap.read id = none) ∧
      (∀ id later, id.ident ∈ r.history.issued → r.heap.read id = none →
        (Recorded.run owner (ops ++ later)).heap.read id = none) ∧
      r.heap.free.Nodup ∧
      ∀ i, i ∈ r.heap.free ↔ (∃ slot, r.heap.objects.slots[i]? = some slot ∧ slot.location = none) ∧
        ⟨i, BitVec.allOnes 32⟩ ∉ r.history.issued := by
  intro r
  have h := Recorded.faithful_run owner ops
  refine ⟨h.sound.consistent, h.read, h.tracks.nodup, fun id slot hslot hlt => ?_, fun id later hid hnone => ?_,
    h.tracks.freeNodup, fun i => ?_⟩
  · rw [GcHeap.read_eq, if_neg]
    rintro ⟨-, hgen⟩
    rw [GcHeap.generationAt, hslot] at hgen
    rw [← Option.some.inj hgen] at hlt
    exact absurd hlt (BitVec.lt_irrefl _)
  · have hlat := Recorded.faithful_run owner (ops ++ later)
    rw [hlat.read]
    rw [h.read] at hnone
    split
    · rename_i hown
      rw [if_pos hown] at hnone
      rw [Recorded.run, List.foldl_append]
      exact h.retired_foldl later hid hnone
    · rfl
  · have hvac : (i < r.heap.arena.generations.length ∧ r.heap.arena.contents i = none) ↔
        ∃ slot, r.heap.objects.slots[i]? = some slot ∧ slot.location = none := by
      simp only [GcHeap.arena, List.length_map]
      constructor
      · rintro ⟨hlt, hnone⟩
        have hslot := List.getElem?_eq_getElem hlt
        have hloc := h.sound.vacant hnone
        rw [ObjectStorage.locationAt, hslot] at hloc
        exact ⟨_, hslot, hloc⟩
      · rintro ⟨slot, hslot, hloc⟩
        refine ⟨(List.getElem?_eq_some_iff.mp hslot).1, ?_⟩
        simp [GcHeap.contents, ObjectStorage.locationAt, hslot, hloc]
    rw [← hvac, and_assoc]
    exact h.tracks.free i

end Kagari.Runtime
