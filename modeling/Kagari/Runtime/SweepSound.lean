import Kagari.Runtime.DirectorySound

/-!
# Rows that move

The extraction of a native payload and the sweep of a collection move rows and bytes. Both vacate slots, and
what the other slots hold stays.
-/

namespace Kagari.Runtime

open Lib Function List

variable {kind k : PayloadKind} {id : InterfaceSnapshotId}

namespace ObjectStorage

variable {P : PlainKind → Type} {s : ObjectStorage P}

/-- The directory's generations are not part of its consistency. -/
theorem Consistent.congr_slots (h : Consistent s) {slots : List ObjectSlot}
    (hsl : ∀ i, locationIn slots i = s.locationAt i) : Consistent { s with slots } := by
  have hpos (kind : PayloadKind) (i : Nat) : position { s with slots } kind i = s.position kind i :=
    congrArg (Option.bind · _) (hsl i)
  refine ⟨fun kind hkind => (h.indexed kind hkind).congr (hpos kind), h.nodup, fun i => ?_, h.tiled⟩
  rw [hpos]
  exact h.listed i

/-! ## Extraction of a row -/

/-- A store that a slot is in has a last row, and the slot of that row is at the end. -/
theorem Consistent.last (h : Consistent s) (hkind : kind ≠ .interface) {d j : Nat}
    (hd : s.locationAt d = some ⟨kind, j⟩) : ∃ last, (s.stores kind).getLast? = some last ∧
      s.locationAt last.directory = some ⟨kind, (s.stores kind).length - 1⟩ := by
  obtain ⟨e, he, -⟩ := h.row hkind hd
  have hlt := (List.getElem?_eq_some_iff.mp he).1
  have hend := List.getElem?_eq_getElem (show (s.stores kind).length - 1 < (s.stores kind).length by omega)
  refine ⟨_, List.getLast?_eq_getElem?.trans hend, ?_⟩
  exact position_eq_some.mp ((h.indexed kind hkind).row hend)

/-- `remove`, after the slot was vacated: the last row is at the place of the removed one. -/
theorem locationAt_remove (h : Consistent s) (hkind : kind ≠ .interface) {d j : Nat}
    (hd : s.locationAt d = some ⟨kind, j⟩) {last : Entry (Row P kind)}
    (hlast : (s.stores kind).getLast? = some last)
    (hloc : s.locationAt last.directory = some ⟨kind, (s.stores kind).length - 1⟩) (i : Nat) :
    (remove { s with slots := vacate s.slots d } kind j).locationAt i =
      if i = d then none else if i = last.directory then some ⟨kind, j⟩ else s.locationAt i := by
  obtain ⟨e, he, hed⟩ := h.row hkind hd
  have hj := (List.getElem?_eq_some_iff.mp he).1
  have hmov := Dense.Indexed.getElem?_swapRemove (i := j) hlast hj
  rw [if_pos rfl] at hmov
  by_cases hinsd : j + 1 < (s.stores kind).length
  · rw [if_pos hinsd] at hmov
    have hne : last.directory ≠ d := by
      intro heq
      rw [heq, hd] at hloc
      have := congrArg PayloadLocation.index (Option.some.inj hloc)
      simp only at this
      omega
    simp only [remove, hmov]
    rw [locationAt_eq, locationIn_relocate, locationIn_vacate, locationIn_vacate, ← locationAt_eq, ← locationAt_eq]
    by_cases hi : i = last.directory
    · simp [hi, hne, hloc]
    · simp [hi]
  · rw [if_neg hinsd] at hmov
    obtain rfl : j = (s.stores kind).length - 1 := by omega
    rw [← List.getLast?_eq_getElem?, hlast] at he
    cases he
    simp only [remove, hmov]
    rw [locationAt_eq, locationIn_vacate, ← locationAt_eq]
    by_cases hi : i = d
    · simp [hi]
    · simp [hi, hed]

theorem Consistent.remove (h : Consistent s) (hkind : kind ≠ .interface)
    (hstruct : kind ≠ .struct) {d j : Nat} (hd : s.locationAt d = some ⟨kind, j⟩) :
    Consistent (remove { s with slots := vacate s.slots d } kind j) := by
  obtain ⟨last, hlast, hloc⟩ := h.last hkind hd
  have hnew := locationAt_remove h hkind hd hlast hloc
  have hother (k : PayloadKind) (hk : k ≠ kind) (i : Nat) :
      (ObjectStorage.remove { s with slots := vacate s.slots d } kind j).position k i = s.position k i := by
    simp only [position, hnew]
    by_cases hid : i = d
    · simp [hid, hd, Ne.symm hk]
    · by_cases hil : i = last.directory
      · simp [hil, hloc, Ne.symm hk]
      · simp [hid, hil]
  refine ⟨fun k hk => ?_, h.nodup, fun i => ?_, ?_⟩
  · by_cases hkk : k = kind
    · subst hkk
      have hrows : (ObjectStorage.remove { s with slots := vacate s.slots d } k j).stores k =
          Dense.swapRemove (s.stores k) j := update_self ..
      rw [hrows]
      refine ((h.indexed k hk).swapRemove (position_eq_some.mpr hd) hlast).congr fun i => ?_
      simp only [position, hnew]
      by_cases hid : i = d
      · simp [hid]
      · by_cases hil : i = last.directory
        · subst hil
          simp [hid]
        · simp [hid, hil]
    · have hrows : (ObjectStorage.remove { s with slots := vacate s.slots d } kind j).stores k = s.stores k :=
        update_of_ne hkk ..
      rw [hrows]
      exact (h.indexed k hk).congr (hother k hkk)
  · rw [hother _ (Ne.symm hkind)]
    exact h.listed i
  · have hrows : (ObjectStorage.remove { s with slots := vacate s.slots d } kind j).stores .struct =
        s.stores .struct := update_of_ne (Ne.symm hstruct) ..
    rw [hrows]
    exact h.tiled

end ObjectStorage

namespace GcHeap

open ObjectStorage

variable {P : PlainKind → Type} {D : Type} {heap heap' : GcHeap P D}

theorem contents_find (h : Consistent heap.objects) (hkind : kind ≠ .interface) {d j : Nat}
    (hd : heap.objects.locationAt d = some ⟨kind, j⟩) :
    heap.contents d = (Dense.find (heap.objects.stores kind) d).map fun e =>
      present heap.objects.structBytes kind e.payload := by
  rw [contents, hd, Option.bind_some, get_row _ hkind,
    (h.indexed kind hkind).at_position (position_eq_some.mpr hd)]

/-- A slot whose row is still there, wherever it is. -/
theorem contents_eq_of_find (h : Consistent heap.objects) (h' : Consistent heap'.objects)
    {d j j' : Nat} (hd : heap.objects.locationAt d = some ⟨kind, j⟩)
    (hd' : heap'.objects.locationAt d = some ⟨kind, j'⟩)
    (hrow : kind ≠ .interface →
      ((Dense.find (heap'.objects.stores kind) d).map fun e => present heap'.objects.structBytes kind e.payload) =
      (Dense.find (heap.objects.stores kind) d).map fun e => present heap.objects.structBytes kind e.payload)
    (hiface : kind = .interface →
      heap'.interfaces.directoryBinding j' = heap.interfaces.directoryBinding j) :
    heap'.contents d = heap.contents d := by
  by_cases hkind : kind = .interface
  · subst hkind
    simp only [contents, hd, hd', Option.bind_some, get_interface, hiface rfl]
  · rw [contents_find h hkind hd, contents_find h' hkind hd', hrow hkind]

/-! ## The next generation of a slot -/

theorem locationAt_advance (heap : GcHeap P D) (d i : Nat) :
    (heap.advance d).objects.locationAt i = heap.objects.locationAt i := by
  unfold advance
  cases hslot : heap.objects.slots[d]? with
  | none => rfl
  | some slot =>
    simp only
    split
    · rfl
    · have hlt := (List.getElem?_eq_some_iff.mp hslot).1
      rw [locationAt_eq, locationIn_set hlt]
      split
      · rename_i hi
        simp [locationAt, hi, hslot]
      · rfl

theorem contents_advance (heap : GcHeap P D) (d i : Nat) : (heap.advance d).contents i = heap.contents i := by
  have hget : (heap.advance d).get = heap.get := by
    unfold advance
    cases heap.objects.slots[d]? with
    | none => rfl
    | some slot =>
      simp only
      split <;> rfl
  rw [contents, contents, locationAt_advance, hget]

theorem advance_objects (heap : GcHeap P D) (d : Nat) :
    (heap.advance d).objects = { heap.objects with slots := (heap.advance d).objects.slots } := by
  unfold advance
  cases heap.objects.slots[d]? with
  | none => rfl
  | some slot =>
    simp only
    split <;> rfl

theorem advance_rest (heap : GcHeap P D) (d : Nat) :
    (heap.advance d).interfaces = heap.interfaces ∧ (heap.advance d).owner = heap.owner ∧
      (heap.advance d).objects.slots.length = heap.objects.slots.length := by
  unfold advance
  cases heap.objects.slots[d]? with
  | none => exact ⟨rfl, rfl, rfl⟩
  | some slot =>
    simp only
    split <;> simp

theorem Sound.advance (h : Sound heap) (d : Nat) : Sound (heap.advance d) := by
  obtain ⟨hifcs, -, hlen⟩ := heap.advance_rest d
  refine ⟨?_, fun i hi => ?_, ?_, ?_⟩
  · rw [advance_objects]
    exact h.consistent.congr_slots (heap.locationAt_advance d)
  · rw [contents_advance]
    rw [locationAt_advance] at hi
    exact h.resolves i hi
  · rw [hifcs]
    exact h.snapshots
  · rw [hlen]
    exact h.capacity

/-- A vacated slot, with its next generation. -/
theorem arena_advance {d : Nat} (hd : d < heap.objects.slots.length)
    (hsl : heap'.objects.slots.map ObjectSlot.generation = heap.objects.slots.map ObjectSlot.generation)
    (hfree : heap'.free = heap.free)
    (hcont : ∀ i, heap'.contents i = if i = d then none else heap.contents i) :
    (heap'.advance d).arena = heap.arena.retire d := by
  have hupd : (heap'.advance d).contents = update heap.contents d none := by
    funext i
    rw [contents_advance, hcont, update_apply]
  obtain ⟨slot, hslot⟩ : ∃ slot, heap'.objects.slots[d]? = some slot := by
    have hlen := congrArg List.length hsl
    simp only [length_map] at hlen
    exact ⟨_, getElem?_eq_getElem (by omega)⟩
  have hgen : heap.arena.generations[d]? = some slot.generation := by
    rw [arena, ← hsl, getElem?_map, hslot]
    rfl
  simp only [Arena.retire, hgen]
  by_cases hlast : slot.generation = BitVec.allOnes 32
  · rw [if_pos hlast]
    have hadvance : heap'.advance d = heap' := by simp [GcHeap.advance, hslot, hlast]
    simp only [arena, hupd]
    rw [hadvance, hsl, hfree]
  · rw [if_neg hlast]
    simp only [arena, hupd]
    simp only [GcHeap.advance, hslot, if_neg hlast, map_set, hsl, hfree]

/-! ## Taking a native payload -/

theorem Sound.remove (h : Sound heap) (hkind : kind ≠ .interface) (hstruct : kind ≠ .struct)
    {d j : Nat} (hd : heap.objects.locationAt d = some ⟨kind, j⟩) :
    let objects := ObjectStorage.remove { heap.objects with slots := vacate heap.objects.slots d } kind j
    Sound { heap with objects } ∧
      (∀ i, contents { heap with objects } i = if i = d then none else heap.contents i) ∧
      objects.slots.map ObjectSlot.generation = heap.objects.slots.map ObjectSlot.generation := by
  intro objects
  obtain ⟨last, hlast, hloc⟩ := h.consistent.last hkind hd
  have hcons : Consistent objects := h.consistent.remove hkind hstruct hd
  have hnew : ∀ i, objects.locationAt i = _ := locationAt_remove h.consistent hkind hd hlast hloc
  have hcont (i : Nat) : contents { heap with objects } i = if i = d then none else heap.contents i := by
    by_cases hid : i = d
    · simp [contents, hnew, hid]
    · rw [if_neg hid]
      cases hold : heap.objects.locationAt i with
      | none =>
        have hnotLast : i ≠ last.directory := by
          rintro rfl
          rw [hold] at hloc
          cases hloc
        simp [contents, hnew, hid, hnotLast, hold]
      | some old =>
        obtain ⟨k, m⟩ := old
        obtain ⟨m', hm', hiface⟩ : ∃ m', objects.locationAt i = some ⟨k, m'⟩ ∧ (k = .interface → m' = m) := by
          rw [hnew, if_neg hid]
          by_cases hil : i = last.directory
          · rw [hil, hloc] at hold
            obtain ⟨rfl, rfl⟩ := PayloadLocation.mk.inj (Option.some.inj hold)
            exact ⟨j, by rw [if_pos hil], fun hk => absurd hk hkind⟩
          · exact ⟨m, by rw [if_neg hil, hold], fun _ => rfl⟩
        refine contents_eq_of_find h.consistent hcons hold hm' (fun hk => ?_) fun hk => ?_
        · have hfind : Dense.find (objects.stores k) i = Dense.find (heap.objects.stores k) i := by
            refine (h.consistent.indexed k hk).find_of_subset (hcons.indexed k hk) (fun e he => ?_)
              (position_eq_some.mpr hm')
            by_cases hkk : k = kind
            · subst hkk
              rw [show objects.stores k = Dense.swapRemove (heap.objects.stores k) j from
                update_self ..] at he
              exact Dense.mem_swapRemove he
            · rwa [show objects.stores k = heap.objects.stores k from update_of_ne hkk ..] at he
          rw [hfind]
          rfl
        · rw [hiface hk]
  have hgenerations : objects.slots.map ObjectSlot.generation = heap.objects.slots.map ObjectSlot.generation := by
    simp only [objects, ObjectStorage.remove]
    split
    · exact generations_vacate _ _
    · exact (generations_relocate _ _ _).trans (generations_vacate _ _)
  refine ⟨⟨hcons, fun i hi => ?_, h.snapshots, ?_⟩, hcont, hgenerations⟩
  · rw [hcont]
    change (objects.locationAt i).isSome at hi
    rw [hnew] at hi
    split
    · simp [*] at hi
    · rename_i hid
      rw [if_neg hid] at hi
      apply h.resolves
      split at hi
      · rename_i hil
        rw [hil, hloc]
        rfl
      · exact hi
  · have hlen := congrArg List.length hgenerations
    simp only [length_map] at hlen
    exact hlen.trans_le h.capacity

theorem takeNative_refines (h : Sound heap) {id : HeapObjectId} (htake : heap.takeNative id = some heap') :
    Sound heap' ∧ heap'.owner = heap.owner ∧ heap'.arena = heap.arena.retire id.index ∧
      ∃ payload, heap.read id = some (.plain .native payload) := by
  simp only [takeNative, Option.bind_eq_bind, Option.bind_eq_some_iff] at htake
  obtain ⟨⟨kind, j⟩, hloc, htake⟩ := htake
  split at htake
  · cases htake
  rename_i hkind
  obtain rfl : kind = .plain .native := by simpa using hkind
  obtain ⟨objects, hobjs, htake⟩ := Option.bind_eq_some_iff.mp htake
  cases htake
  have hd := locationAt_of_objectLocation hloc
  simp only [detachNative, hd, Option.bind_eq_bind, Option.bind_some, ne_eq, not_true_eq_false, if_false] at hobjs
  cases hobjs
  have hnat : PayloadKind.plain .native ≠ .interface := by simp
  obtain ⟨e, he, -⟩ := h.consistent.row hnat hd
  have hread : heap.read id = some (.plain .native e.payload) := by
    simp only [read, hloc, Option.bind_eq_bind, Option.bind_some]
    rw [get_row _ hnat, he]
    rfl
  have hbnd : id.index < heap.objects.slots.length := by
    by_contra hge
    simp [locationAt, getElem?_eq_none (Nat.not_lt.mp hge)] at hd
  obtain ⟨hsnd, hcont, hsl⟩ := h.remove hnat (by simp) hd
  exact ⟨hsnd.advance _, (advance_rest _ _).2.1, arena_advance hbnd hsl rfl hcont, e.payload, hread⟩

end GcHeap

/-! ## Extraction of the rows of vacated slots -/

variable {T : Type}

namespace ObjectStorage

variable {P : PlainKind → Type} {s : ObjectStorage P}

/-- The slots of the rows, at the positions from `n` on. -/
def relocateAll {T : Type} (slots : List ObjectSlot) (store : List (Entry T)) (n : Nat) : List ObjectSlot :=
  (store.zipIdx n).foldl (fun slots (entry, index) => relocate slots entry.directory index) slots

theorem relocateAll_cons (slots : List ObjectSlot) (e : Entry T) (store : List (Entry T)) (n : Nat) :
    relocateAll slots (e :: store) n = relocateAll (relocate slots e.directory n) store (n + 1) := rfl

theorem locationIn_relocateAll_other {store : List (Entry T)} : ∀ {slots : List ObjectSlot} {n i : Nat},
    i ∉ store.map Entry.directory → locationIn (relocateAll slots store n) i = locationIn slots i := by
  induction store with
  | nil =>
    intro slots n i _
    rfl
  | cons e store ih =>
    intro slots n i hi
    simp only [map_cons, mem_cons, not_or] at hi
    rw [relocateAll_cons, ih hi.2, locationIn_relocate, if_neg hi.1]

theorem locationIn_relocateAll {store : List (Entry T)} : ∀ {slots : List ObjectSlot} {n j : Nat}
    {e : Entry T}, (store.map Entry.directory).Nodup → store[j]? = some e →
      locationIn (relocateAll slots store n) e.directory =
        (locationIn slots e.directory).map ({ · with index := n + j }) := by
  induction store with
  | nil => simp
  | cons first store ih =>
    intro slots n j e hnd he
    rw [map_cons, nodup_cons] at hnd
    rw [relocateAll_cons]
    cases j with
    | zero =>
      obtain rfl : first = e := by simpa using he
      rw [locationIn_relocateAll_other hnd.1, locationIn_relocate, if_pos rfl]
      rfl
    | succ j =>
      have he' : store[j]? = some e := by simpa using he
      have hne : e.directory ≠ first.directory := by
        intro heq
        exact hnd.1 (heq ▸ mem_map_of_mem (mem_of_getElem? he'))
      rw [ih hnd.2 he', locationIn_relocate, if_neg hne, Nat.add_assoc, Nat.add_comm 1 j]

theorem generations_relocateAll (store : List (Entry T)) : ∀ (slots : List ObjectSlot) (n : Nat),
    (relocateAll slots store n).map ObjectSlot.generation = slots.map ObjectSlot.generation := by
  induction store with
  | nil => exact fun _ _ => rfl
  | cons e store ih =>
    intro slots n
    rw [relocateAll_cons, ih, generations_relocate]

/-- The slots that have a location. -/
def alive (s : ObjectStorage P) (i : Nat) : Bool := (s.locationAt i).isSome

/-- The rows of a store that vacated slots have left. -/
def deadRows (s : ObjectStorage P) (kind : PayloadKind) : Nat :=
  (s.stores kind).countP fun e => !s.alive e.directory

/-- What an extraction does: the rows of the kind are the live ones, at their new positions. -/
structure Extracted (s s' : ObjectStorage P) (kind : PayloadKind) : Prop where
  store : s'.stores kind = (s.stores kind).filter fun e => s.alive e.directory
  stores : ∀ k, k ≠ kind → s'.stores k = s.stores k
  indexed : Dense.Indexed (s'.stores kind) (s'.position kind)
  kinds : ∀ i, (s'.locationAt i).map PayloadLocation.kind = (s.locationAt i).map PayloadLocation.kind
  others : ∀ i k j, k ≠ kind → (s'.locationAt i = some ⟨k, j⟩ ↔ s.locationAt i = some ⟨k, j⟩)
  generations : s'.slots.map ObjectSlot.generation = s.slots.map ObjectSlot.generation
  bytes : s'.structBytes = s.structBytes
  listed : s'.interfaceDirectories = s.interfaceDirectories

variable {kind : PayloadKind}

/-- The live rows, and their slots relocated. -/
theorem compacted
    (h : Dense.Marked (s.stores kind) (s.position kind) s.alive) :
    Extracted s
      { s with
        stores := update s.stores kind ((s.stores kind).filter fun e => s.alive e.directory)
        slots := relocateAll s.slots ((s.stores kind).filter fun e => s.alive e.directory) 0 } kind := by
  generalize hs' : ({ s with
        stores := update s.stores kind ((s.stores kind).filter fun e => s.alive e.directory)
        slots := relocateAll s.slots ((s.stores kind).filter fun e => s.alive e.directory) 0 } :
          ObjectStorage P) = s'
  have hsto : s'.stores kind = (s.stores kind).filter fun e => s.alive e.directory := by
    rw [← hs']
    exact update_self ..
  have hnd : (((s.stores kind).filter fun e => s.alive e.directory).map Entry.directory).Nodup :=
    h.nodup.sublist (List.filter_sublist.map _)
  -- the slot of a live row, before and after
  have hrow {j : Nat} {e : Entry (Row P kind)}
      (he : ((s.stores kind).filter fun e => s.alive e.directory)[j]? = some e) :
      (∃ m, s.locationAt e.directory = some ⟨kind, m⟩) ∧ s'.locationAt e.directory = some ⟨kind, j⟩ := by
    obtain ⟨hmem, halive⟩ := List.mem_filter.mp (List.mem_of_getElem? he)
    obtain ⟨m, hm, hget⟩ := List.getElem_of_mem hmem
    have hold := position_eq_some.mp (h.row (List.getElem?_eq_some_iff.mpr ⟨hm, hget⟩) halive)
    refine ⟨⟨m, hold⟩, ?_⟩
    rw [← hs', locationAt_eq, locationIn_relocateAll hnd he, ← locationAt_eq, hold]
    simp
  have hother {i : Nat} (hi : i ∉ ((s.stores kind).filter fun e => s.alive e.directory).map Entry.directory) :
      s'.locationAt i = s.locationAt i := by
    rw [← hs', locationAt_eq, locationIn_relocateAll_other hi]
    rfl
  have hcases (i : Nat) : s'.locationAt i = s.locationAt i ∨
      (∃ m, s.locationAt i = some ⟨kind, m⟩) ∧ ∃ j, s'.locationAt i = some ⟨kind, j⟩ := by
    by_cases hi : i ∈ ((s.stores kind).filter fun e => s.alive e.directory).map Entry.directory
    · obtain ⟨e, hmem, rfl⟩ := List.mem_map.mp hi
      obtain ⟨j, hj, hget⟩ := List.getElem_of_mem hmem
      obtain ⟨hold, hnew⟩ := hrow (List.getElem?_eq_some_iff.mpr ⟨hj, hget⟩)
      exact .inr ⟨hold, j, hnew⟩
    · exact .inl (hother hi)
  refine ⟨hsto, fun k hk => ?_, ?_, fun i => ?_, fun i k j hk => ?_, ?_, ?_, ?_⟩
  · rw [← hs']
    exact update_of_ne hk ..
  · rw [hsto]
    refine h.filter (fun he => position_eq_some.mpr (hrow he).2) fun {d j} hj => ?_
    rcases hcases d with hsame | ⟨⟨m, hm⟩, -⟩
    · exact ⟨j, position_eq_some.mpr (hsame ▸ position_eq_some.mp hj)⟩
    · exact ⟨m, position_eq_some.mpr hm⟩
  · rcases hcases i with hsame | ⟨⟨m, hm⟩, j, hj⟩
    · rw [hsame]
    · rw [hm, hj]
      rfl
  · rcases hcases i with hsame | ⟨⟨m, hm⟩, j', hj⟩
    · rw [hsame]
    · rw [hm, hj]
      simp [Ne.symm hk]
  · rw [← hs']
    exact generations_relocateAll _ _ _
  · rw [← hs']
  · rw [← hs']

theorem extract_extracted (h : Dense.Marked (s.stores kind) (s.position kind) s.alive) :
    Extracted s (s.extract kind (s.deadRows kind)) kind := by
  unfold extract
  split
  · -- nothing is dead
    rename_i hzero
    have hall : ∀ e ∈ s.stores kind, s.alive e.directory = true := by
      intro e he
      have := countP_eq_zero.mp hzero e he
      simpa using this
    refine ⟨?_, fun _ _ => rfl, h.indexed hall, fun _ => rfl, fun _ _ _ _ => Iff.rfl, rfl, rfl, rfl⟩
    exact (filter_eq_self.mpr hall).symm
  · split
    · -- all are dead
      rename_i hlen
      have hnone : ∀ e ∈ s.stores kind, s.alive e.directory = false := by
        intro e he
        have := countP_eq_length.mp hlen e he
        simpa using this
      refine ⟨?_, fun k hk => update_of_ne hk .., ?_, fun _ => rfl, fun _ _ _ _ => Iff.rfl, rfl, rfl, rfl⟩
      · simp only [update_self]
        exact (filter_eq_nil_iff.mpr fun e he => by simp [hnone e he]).symm
      · simp only [update_self]
        refine ⟨fun he => by simp at he, fun {d j} hj => ?_⟩
        obtain ⟨halive, e, he, rfl⟩ := h.entry hj
        rw [hnone e (mem_of_getElem? he)] at halive
        cases halive
    · exact compacted h

/-! ## Compaction of the byte arena -/

/-- Records in the order of their ranges, with gaps. -/
def Spaced : List (Entry StructRecord) → Nat → Nat → Prop
  | [], start, stop => start ≤ stop
  | entry :: entries, start, stop =>
    start ≤ entry.payload.offset ∧ Spaced entries (entry.payload.offset + entry.payload.description.size) stop

variable {entries : List (Entry StructRecord)}

theorem Tiled.spaced : ∀ {start stop : Nat}, Tiled entries start stop →
    Spaced entries start stop := by
  induction entries with
  | nil => exact fun h => h.le
  | cons entry entries ih =>
    intro start stop h
    refine ⟨h.1.ge, ?_⟩
    rw [h.1]
    exact ih h.2

theorem Spaced.mono {start start' stop : Nat} (h : Spaced entries start stop)
    (hle : start' ≤ start) : Spaced entries start' stop := by
  cases entries with
  | nil => exact hle.trans h
  | cons entry entries => exact ⟨hle.trans h.1, h.2⟩

theorem Spaced.le : ∀ {start stop : Nat}, Spaced entries start stop →
    start ≤ stop := by
  induction entries with
  | nil => exact fun h => h
  | cons entry entries ih =>
    intro start stop h
    have hrest := ih h.2
    have hst := h.1
    omega

theorem Spaced.filter (keep : Entry StructRecord → Bool) :
    ∀ {start stop : Nat}, Spaced entries start stop → Spaced (entries.filter keep) start stop := by
  induction entries with
  | nil => exact fun h => h
  | cons entry entries ih =>
    intro start stop h
    have hst := h.1
    rw [filter_cons]
    split
    · exact ⟨h.1, ih h.2⟩
    · exact (ih h.2).mono (by omega)

theorem Spaced.range : ∀ {start stop : Nat} {e : Entry StructRecord},
    Spaced entries start stop → e ∈ entries → start ≤ e.payload.offset := by
  induction entries with
  | nil =>
    intro start stop e _ he
    cases he
  | cons entry entries ih =>
    intro start stop e h he
    rcases mem_cons.mp he with rfl | he
    · exact h.1
    · have hrest := ih h.2 he
      have hst := h.1
      omega

/-- A record that was moved shows the bytes it showed before. -/
def Moved (bytes bytes' : List Byte) (e e' : Entry StructRecord) : Prop :=
  e'.directory = e.directory ∧ viewOf bytes' e'.payload = viewOf bytes e.payload

theorem viewOf_congr {bytes bytes' : List Byte} {record : StructRecord} {offset : Nat}
    (h : slice bytes' offset record.description.size = slice bytes record.offset record.description.size) :
    viewOf bytes' { record with offset } = viewOf bytes record :=
  congrArg (StructView.mk _) h

/-- The records are moved to tile the bytes from `offset` on; what is before stays. -/
theorem compact_moves : ∀ {start offset : Nat} {bytes : List Byte},
    Spaced entries start bytes.length → offset ≤ start →
      let out := compact entries offset bytes
      out.2.2.length = bytes.length ∧ out.2.1 ≤ bytes.length ∧ Tiled out.1 offset out.2.1 ∧
        (∀ i, i < offset → out.2.2[i]? = bytes[i]?) ∧ List.Forall₂ (Moved bytes out.2.2) entries out.1 := by
  induction entries with
  | nil =>
    intro start offset bytes h hle
    exact ⟨rfl, hle.trans h, rfl, fun _ _ => rfl, .nil⟩
  | cons entry entries ih =>
    intro start offset bytes h hle out
    obtain ⟨hst, hspaced⟩ := h
    have hend := hspaced.le
    have hsrc : (slice bytes entry.payload.offset entry.payload.description.size).length =
        entry.payload.description.size := by
      rw [slice, length_take, length_drop]
      omega
    generalize hcopy : copyWithin bytes entry.payload.offset entry.payload.description.size offset = copied
    have hcpd : copied = overwrite bytes offset
        (slice bytes entry.payload.offset entry.payload.description.size) := hcopy.symm
    have hfits : offset + (slice bytes entry.payload.offset entry.payload.description.size).length ≤
        bytes.length := by omega
    have hlen : copied.length = bytes.length := by rw [hcpd, overwrite_length hfits]
    have htgt : offset + entry.payload.description.size ≤
        entry.payload.offset + entry.payload.description.size := by omega
    obtain ⟨houtLength, hstop, htiled, hbef, hmov⟩ := ih (hlen ▸ hspaced) htgt
    have hout : out = ({ entry with payload := { entry.payload with offset } } ::
        (compact entries (offset + entry.payload.description.size) copied).1,
        (compact entries (offset + entry.payload.description.size) copied).2) := by
      simp only [out, compact, hcopy]
    rw [hout]
    refine ⟨houtLength.trans hlen, hlen ▸ hstop, ⟨rfl, htiled⟩, fun i hi => ?_, .cons ⟨rfl, ?_⟩ ?_⟩
    · rw [hbef i (by omega), hcpd, overwrite_getElem? hfits, if_neg (by omega)]
    · -- the rest is written behind the record
      apply viewOf_congr
      have hslc := slice_overwrite hfits
      rw [hsrc] at hslc
      rw [← hslc, ← hcpd]
      exact slice_congr fun i hi => hbef _ (by omega)
    · -- the copy is before the records that are still to move
      have hunm : ∀ e ∈ entries, viewOf copied e.payload = viewOf bytes e.payload := by
        intro e he
        have hrng := hspaced.range he
        apply congrArg (StructView.mk _)
        rw [hcpd]
        exact slice_overwrite_apart hfits (.inr (by omega))
      refine (((List.forall₂_and_left entries _).mpr ⟨hunm, hmov⟩).imp ?_)
      rintro e e' ⟨hview, hdir, hview'⟩
      exact ⟨hdir, hview'.trans hview⟩

/-- Bytes behind the records go. -/
theorem Moved.truncate {bytes bytes' : List Byte} {stop : Nat} :
    ∀ {start : Nat} {store : List (Entry StructRecord)}, Tiled store start stop →
      List.Forall₂ (Moved bytes bytes') entries store →
      List.Forall₂ (Moved bytes (bytes'.take stop)) entries store := by
  induction entries with
  | nil =>
    intro start store _ hmov
    cases hmov
    exact .nil
  | cons entry entries ih =>
    intro start store htiled hmov
    cases hmov with
    | @cons _ e' _ store' hfst hrest =>
      have hrng := (htiled.range (j := 0) rfl).2
      refine .cons ⟨hfst.1, ?_⟩ (ih htiled.2 hrest)
      rw [← hfst.2]
      apply congrArg (StructView.mk _)
      apply slice_congr
      intro i hi
      rw [getElem?_take, if_pos (by omega)]

/-- The live records, moved together. -/
theorem extractStructs_extracted (h : Dense.Marked (s.stores .struct) (s.position .struct) s.alive)
    (htiled : Tiled (s.stores .struct) 0 s.structBytes.length) :
    let s₁ := s.extract .struct (s.deadRows .struct)
    let s' := s.extractStructs (s.deadRows .struct)
    s'.slots = s₁.slots ∧ (∀ k, k ≠ .struct → s'.stores k = s₁.stores k) ∧
      s'.interfaceDirectories = s₁.interfaceDirectories ∧
      Tiled (s'.stores .struct) 0 s'.structBytes.length ∧
      List.Forall₂ (Moved s.structBytes s'.structBytes) (s₁.stores .struct) (s'.stores .struct) := by
  intro s₁ s'
  have hextr : Extracted s s₁ .struct := extract_extracted h
  have hrefl (entries : List (Entry StructRecord)) :
      List.Forall₂ (Moved s.structBytes s.structBytes) entries entries :=
    List.forall₂_same.mpr fun _ _ => ⟨rfl, rfl⟩
  by_cases hzero : s.deadRows .struct = 0
  · have hs' : s' = s := by simp only [s', extractStructs, if_pos hzero]
    have hs₁ : s₁ = s := by simp only [s₁, extract, if_pos hzero]
    rw [hs', hs₁]
    exact ⟨rfl, fun _ _ => rfl, rfl, htiled, hrefl _⟩
  · by_cases hemp : (s₁.stores .struct).isEmpty
    · have hs' : s' = { s₁ with structBytes := [] } := by
        simp only [s', extractStructs, if_neg hzero]
        exact if_pos hemp
      have hnil : s₁.stores .struct = [] := isEmpty_iff.mp hemp
      rw [hs']
      refine ⟨rfl, fun _ _ => rfl, rfl, ?_, ?_⟩
      · rw [hnil]
        rfl
      · rw [hnil]
        exact .nil
    · have hs' : s' = { s₁ with
          stores := update s₁.stores .struct (compact (s₁.stores .struct) 0 s₁.structBytes).1
          structBytes := (compact (s₁.stores .struct) 0 s₁.structBytes).2.2.take
            (compact (s₁.stores .struct) 0 s₁.structBytes).2.1 } := by
        simp only [s', extractStructs, if_neg hzero]
        exact if_neg hemp
      have hspaced : Spaced (s₁.stores .struct) 0 s₁.structBytes.length := by
        rw [hextr.store, hextr.bytes]
        exact htiled.spaced.filter _
      obtain ⟨hlen, hstop, hcpt, -, hmov⟩ := compact_moves hspaced (Nat.le_refl 0)
      rw [hextr.bytes] at hlen hstop hcpt hmov
      rw [hs', hextr.bytes]
      refine ⟨rfl, fun k hk => update_of_ne hk .., rfl, ?_, ?_⟩
      · rw [length_take, Nat.min_eq_left (hlen ▸ hstop)]
        exact hcpt
      · exact Moved.truncate hcpt hmov

/-! ## The stores of all kinds -/

/-- A row of a kind, as an access shows it. -/
def shown (s : ObjectStorage P) (kind : PayloadKind) (d : Nat) : Option (Payload P) :=
  (Dense.find (s.stores kind) d).map fun e => GcHeap.present s.structBytes kind e.payload

/-- The rows of the vacated slots of `s` are extracted from the stores of the kinds in `done`. -/
structure Detaching (s s' : ObjectStorage P) (done : List PayloadKind) : Prop where
  kinds : ∀ i, (s'.locationAt i).map PayloadLocation.kind = (s.locationAt i).map PayloadLocation.kind
  pending : ∀ k, k ∉ done → s'.stores k = s.stores k ∧
    ∀ i j, s'.locationAt i = some ⟨k, j⟩ ↔ s.locationAt i = some ⟨k, j⟩
  finished : ∀ k ∈ done, Dense.Indexed (s'.stores k) (s'.position k)
  rows : ∀ k i, s.alive i = true → s'.shown k i = s.shown k i
  generations : s'.slots.map ObjectSlot.generation = s.slots.map ObjectSlot.generation
  unmoved : .struct ∉ done → s'.structBytes = s.structBytes
  tiled : .struct ∈ done → Tiled (s'.stores .struct) 0 s'.structBytes.length

variable {s' : ObjectStorage P} {done : List PayloadKind}

theorem Detaching.alive (h : Detaching s s' done) (i : Nat) : s'.alive i = s.alive i := by
  have := congrArg Option.isSome (h.kinds i)
  simpa [ObjectStorage.alive] using this

theorem Detaching.position (h : Detaching s s' done) (hk : k ∉ done) (i : Nat) :
    s'.position k i = s.position k i := by
  apply Option.ext
  intro j
  rw [position_eq_some, position_eq_some]
  exact (h.pending k hk).2 i j

/-- A store that is still to do is as it was marked. -/
theorem Detaching.marked (h : Detaching s s' done) (hk : k ∉ done)
    (hmrk : Dense.Marked (s.stores k) (s.position k) s.alive) :
    Dense.Marked (s'.stores k) (s'.position k) s'.alive ∧ s'.deadRows k = s.deadRows k := by
  have halive : s'.alive = s.alive := funext h.alive
  have hpos : s'.position k = s.position k := funext (h.position hk)
  rw [(h.pending k hk).1, hpos, halive, deadRows, deadRows, (h.pending k hk).1, halive]
  exact ⟨hmrk, rfl⟩

theorem shown_filter (hextr : Extracted s s' kind) {i : Nat} (hi : s.alive i = true)
    (k : PayloadKind) : s'.shown k i = s.shown k i := by
  unfold shown
  rw [hextr.bytes]
  by_cases hk : k = kind
  · subst hk
    rw [hextr.store, Dense.find_filter _ hi]
  · rw [hextr.stores k hk]

theorem Detaching.extract (h : Detaching s s' done) (hkind : kind ∉ done)
    (hstruct : kind ≠ .struct) (hmrk : Dense.Marked (s.stores kind) (s.position kind) s.alive) :
    Detaching s (s'.extract kind (s.deadRows kind)) (kind :: done) := by
  obtain ⟨hmrk', hdead⟩ := h.marked hkind hmrk
  rw [← hdead]
  have hextr := extract_extracted hmrk'
  generalize s'.extract kind (s'.deadRows kind) = s'' at hextr ⊢
  refine ⟨fun i => ?_, fun k hk => ?_, fun k hk => ?_, fun k i hi => ?_, ?_, fun hk => ?_, fun hk => ?_⟩
  · rw [hextr.kinds, h.kinds]
  · obtain ⟨hne, hk⟩ := not_or.mp (mem_cons.not.mp hk)
    rw [hextr.stores k hne]
    exact ⟨(h.pending k hk).1, fun i j => (hextr.others i k j hne).trans ((h.pending k hk).2 i j)⟩
  · by_cases hne : k = kind
    · subst hne
      exact hextr.indexed
    · rw [hextr.stores k hne]
      refine (h.finished k ((mem_cons.mp hk).resolve_left hne)).congr fun i => ?_
      apply Option.ext
      intro j
      rw [position_eq_some, position_eq_some]
      exact hextr.others i k j hne
  · rw [shown_filter hextr (by rwa [h.alive]), h.rows k i hi]
  · rw [hextr.generations, h.generations]
  · rw [hextr.bytes]
    exact h.unmoved (not_or.mp (mem_cons.not.mp hk)).2
  · rw [hextr.stores _ (Ne.symm hstruct), hextr.bytes]
    exact h.tiled ((mem_cons.mp hk).resolve_left (Ne.symm hstruct))

theorem find_moved {entries store : List (Entry StructRecord)} {bytes bytes' : List Byte}
    (h : List.Forall₂ (Moved bytes bytes') entries store) (i : Nat) :
    (Dense.find store i).map (fun e => viewOf bytes' e.payload) =
      (Dense.find entries i).map fun e => viewOf bytes e.payload := by
  induction h with
  | nil => rfl
  | @cons e e' _ _ hfst _ ih =>
    unfold Dense.find at ih ⊢
    rw [find?_cons, find?_cons, hfst.1]
    cases e.directory == i with
    | true => exact congrArg some hfst.2
    | false => exact ih

theorem directories_moved {entries store : List (Entry StructRecord)} {bytes bytes' : List Byte}
    (h : List.Forall₂ (Moved bytes bytes') entries store) :
    store.map Entry.directory = entries.map Entry.directory := by
  induction h with
  | nil => rfl
  | cons hfst _ ih => rw [map_cons, map_cons, hfst.1, ih]

theorem Detaching.extractStructs (h : Detaching s s' done) (hdone : .struct ∉ done)
    (hmrk : Dense.Marked (s.stores .struct) (s.position .struct) s.alive)
    (htiled : Tiled (s.stores .struct) 0 s.structBytes.length) :
    Detaching s (s'.extractStructs (s.deadRows .struct)) (.struct :: done) := by
  obtain ⟨hmrk', hdead⟩ := h.marked hdone hmrk
  have htiled' : Tiled (s'.stores .struct) 0 s'.structBytes.length := by
    rw [(h.pending _ hdone).1, h.unmoved hdone]
    exact htiled
  rw [← hdead]
  have hextr := extract_extracted hmrk'
  obtain ⟨hsl, hstrs, -, htiles, hmov⟩ := extractStructs_extracted hmrk' htiled'
  generalize s'.extract .struct (s'.deadRows .struct) = s₁ at hextr hsl hstrs hmov
  generalize s'.extractStructs (s'.deadRows .struct) = s'' at hsl hstrs htiles hmov ⊢
  have hloc (i : Nat) : s''.locationAt i = s₁.locationAt i := by rw [locationAt_eq, locationAt_eq, hsl]
  have hpos (k : PayloadKind) (i : Nat) : s''.position k i = s₁.position k i :=
    congrArg (Option.bind · _) (hloc i)
  refine ⟨fun i => ?_, fun k hk => ?_, fun k hk => ?_, fun k i hi => ?_, ?_, fun hk => ?_, fun _ => htiles⟩
  · rw [hloc, hextr.kinds, h.kinds]
  · obtain ⟨hne, hk⟩ := not_or.mp (mem_cons.not.mp hk)
    rw [hstrs k hne, hextr.stores k hne]
    refine ⟨(h.pending k hk).1, fun i j => ?_⟩
    rw [hloc]
    exact (hextr.others i k j hne).trans ((h.pending k hk).2 i j)
  · by_cases hne : k = .struct
    · subst hne
      exact (hextr.indexed.congr_directories (directories_moved hmov)).congr (hpos _)
    · rw [hstrs k hne, hextr.stores k hne]
      refine (h.finished k ((mem_cons.mp hk).resolve_left hne)).congr fun i => ?_
      rw [hpos]
      apply Option.ext
      intro j
      rw [position_eq_some, position_eq_some]
      exact hextr.others i k j hne
  · have hshown : s''.shown k i = s₁.shown k i := by
      cases k with
      | struct =>
        have hfind := congrArg (Option.map (@Payload.struct P)) (find_moved hmov i)
        rw [Option.map_map, Option.map_map, ← hextr.bytes] at hfind
        exact hfind
      | plain kind =>
        rw [shown, shown, hstrs _ (by simp)]
        rfl
      | cell =>
        rw [shown, shown, hstrs _ (by simp)]
        rfl
      | interface =>
        rw [shown, shown, hstrs _ (by simp)]
        exact congrFun (congrArg Option.map (funext fun e => Empty.elim e.payload)) _
    rw [hshown, shown_filter hextr (by rwa [h.alive]), h.rows k i hi]
  · rw [hsl, hextr.generations, h.generations]
  · exact absurd mem_cons_self hk

theorem Detaching.start (s : ObjectStorage P) (interfaceDirectories : List Nat) :
    Detaching s { s with interfaceDirectories } [] where
  kinds _ := rfl
  pending _ _ := ⟨rfl, fun _ _ => Iff.rfl⟩
  finished _ h := by cases h
  rows _ _ _ := rfl
  generations := rfl
  unmoved _ := rfl
  tiled h := by cases h

/-- The stores of plain kinds, one after another. -/
theorem Detaching.plain (hmrk : ∀ k, k ≠ .interface → Dense.Marked (s.stores k) (s.position k) s.alive)
    (kinds : List PlainKind) : ∀ {s' : ObjectStorage P} {done : List PayloadKind}, Detaching s s' done →
      kinds.Nodup → (∀ kind ∈ kinds, .plain kind ∉ done) →
      Detaching s (kinds.foldl (fun s' kind => s'.extract (.plain kind) (s.deadRows (.plain kind))) s')
        (kinds.reverse.map .plain ++ done) := by
  induction kinds with
  | nil => exact fun h _ _ => h
  | cons kind kinds ih =>
    intro s' done h hnd hdone
    rw [nodup_cons] at hnd
    have hnext := h.extract (hdone kind (by simp)) (by simp) (hmrk (.plain kind) (by simp))
    have hrest := ih hnext hnd.2 fun k hk => by
      simp only [mem_cons, not_or]
      refine ⟨?_, hdone k (by simp [hk])⟩
      intro heq
      obtain rfl := PayloadKind.plain.inj heq
      exact hnd.1 hk
    simpa using hrest

theorem extract_listed (s : ObjectStorage P) (kind : PayloadKind) (count : Nat) :
    (s.extract kind count).interfaceDirectories = s.interfaceDirectories := by
  unfold ObjectStorage.extract
  split
  · rfl
  · split <;> rfl

theorem extractStructs_listed (s : ObjectStorage P) (count : Nat) :
    (s.extractStructs count).interfaceDirectories = s.interfaceDirectories := by
  unfold ObjectStorage.extractStructs
  split
  · rfl
  · simp only
    split <;> exact extract_listed s .struct count

theorem extractAll_listed (kinds : List PlainKind) (counts : DetachedCounts) : ∀ s : ObjectStorage P,
    (kinds.foldl (fun s kind => s.extract (.plain kind) (counts (.plain kind))) s).interfaceDirectories =
      s.interfaceDirectories := by
  induction kinds with
  | nil => exact fun _ => rfl
  | cons kind kinds ih =>
    intro s
    rw [foldl_cons, ih, extract_listed]

/-- Every store has the rows of the slots that still have a location. -/
theorem detachMarked_detaching (hmrk : ∀ k, k ≠ .interface → Dense.Marked (s.stores k) (s.position k) s.alive)
    (htiled : Tiled (s.stores .struct) 0 s.structBytes.length) {counts : DetachedCounts}
    (hcnts : ∀ k, k ≠ .interface → counts k = s.deadRows k) : ∃ done, (∀ k, k ≠ .interface → k ∈ done) ∧
      .interface ∉ done ∧ Detaching s (s.detachMarked counts) done ∧
      (s.detachMarked counts).interfaceDirectories = (s.extractInterfaces
        (counts .interface)).interfaceDirectories := by
  obtain ⟨directories, hifcs⟩ :
      ∃ directories, s.extractInterfaces (counts .interface) = { s with interfaceDirectories := directories } := by
    unfold extractInterfaces
    split
    · exact ⟨_, rfl⟩
    · exact ⟨_, rfl⟩
  have hplain := Detaching.plain hmrk [.string, .tuple, .range, .hostRoot, .hostPath, .ephemeral, .native, .enum]
    (Detaching.start s directories) (by decide) (by simp)
  have hstructs := hplain.extractStructs (by decide) (hmrk _ (by simp)) htiled
  have hclosures := hstructs.extract (by decide) (by simp) (hmrk (.plain .closure) (by simp))
  have hcells := hclosures.extract (by decide) (by simp) (hmrk .cell (by simp))
  have hcountsPlain (kind : PlainKind) : counts (.plain kind) = s.deadRows (.plain kind) := hcnts _ (by simp)
  simp only [← hcountsPlain, ← hcnts .struct (by simp), ← hcnts .cell (by simp), ← hifcs] at hcells
  refine ⟨_, fun k hk => ?_, by decide, hcells, ?_⟩
  · cases k with
    | interface => exact absurd rfl hk
    | plain kind => cases kind <;> decide
    | struct => decide
    | cell => decide
  · simp only [detachMarked]
    rw [extract_listed, extract_listed, extractStructs_listed, extractAll_listed]

end ObjectStorage

/-! ## The sweep -/

namespace GcHeap

open ObjectStorage

variable {P : PlainKind → Type} {D : Type} {heap : GcHeap P D}

/-- One dead object of the sweep, whose slot has a location. -/
theorem retire_eq {d : Nat} {location : PayloadLocation} (hd : heap.objects.locationAt d = some location)
    (counts : DetachedCounts) : retire (heap, counts) d =
      (advance { heap with objects := { heap.objects with slots := vacate heap.objects.slots d } } d,
        update counts location.kind (counts location.kind + 1)) := by
  simp only [retire, markDetached, hd]
  rfl

theorem contents_vacate (heap : GcHeap P D) (d i : Nat) :
    contents { heap with objects := { heap.objects with slots := vacate heap.objects.slots d } } i =
      if i = d then none else heap.contents i := by
  have hloc := locationIn_vacate heap.objects.slots d i
  simp only [contents, locationAt_eq, hloc]
  split
  · rfl
  · rfl

/-- What the marks of the sweep leave: only the slots and the free list change. -/
structure Retired (heap heap' : GcHeap P D) (counts counts' : DetachedCounts) (dead : List Nat) : Prop where
  locations : ∀ i, heap'.objects.locationAt i = if i ∈ dead then none else heap.objects.locationAt i
  objects : heap'.objects = { heap.objects with slots := heap'.objects.slots }
  interfaces : heap'.interfaces = heap.interfaces
  owner : heap'.owner = heap.owner
  arena : heap'.arena = dead.foldl Arena.retire heap.arena
  counts : ∀ k, counts' k = counts k + dead.countP fun d => (heap.objects.position k d).isSome

theorem foldl_retire (dead : List Nat) : ∀ (heap : GcHeap P D) (counts : DetachedCounts), dead.Nodup →
    (∀ d ∈ dead, (heap.objects.locationAt d).isSome) →
      Retired heap (dead.foldl retire (heap, counts)).1 counts (dead.foldl retire (heap, counts)).2 dead := by
  induction dead with
  | nil =>
    intro heap counts _ _
    exact ⟨fun _ => rfl, rfl, rfl, rfl, rfl, fun _ => rfl⟩
  | cons d dead ih =>
    intro heap counts hnd hlocd
    rw [nodup_cons] at hnd
    have hother : ∀ i ∈ dead, i ≠ d := fun i hi heq => hnd.1 (heq ▸ hi)
    obtain ⟨location, hd⟩ := Option.isSome_iff_exists.mp (hlocd d (by simp))
    have hbnd : d < heap.objects.slots.length := by
      by_contra hge
      simp [locationAt, getElem?_eq_none (Nat.not_lt.mp hge)] at hd
    rw [foldl_cons, retire_eq hd]
    generalize hvacd : ({ heap with objects := { heap.objects with slots := vacate heap.objects.slots d } } :
      GcHeap P D) = vacated
    have hlocations (i : Nat) : (vacated.advance d).objects.locationAt i =
        if i = d then none else heap.objects.locationAt i := by
      rw [locationAt_advance, ← hvacd]
      exact locationIn_vacate heap.objects.slots d i
    have harena : (vacated.advance d).arena = heap.arena.retire d := by
      rw [← hvacd]
      exact arena_advance hbnd (generations_vacate _ _) rfl (heap.contents_vacate d)
    obtain ⟨hifcs, hown, -⟩ := vacated.advance_rest d
    have hrest := ih (vacated.advance d) (update counts location.kind (counts location.kind + 1)) hnd.2
      fun i hi => by
        rw [hlocations, if_neg (hother i hi)]
        exact hlocd i (by simp [hi])
    refine ⟨fun i => ?_, ?_, ?_, ?_, ?_, fun k => ?_⟩
    · rw [hrest.locations, hlocations]
      by_cases hi : i ∈ dead
      · simp [hi]
      · by_cases hid : i = d <;> simp [hi, hid]
    · rw [hrest.objects, advance_objects, ← hvacd]
    · rw [hrest.interfaces, hifcs, ← hvacd]
    · rw [hrest.owner, hown, ← hvacd]
    · rw [hrest.arena, harena]
      rfl
    · rw [hrest.counts, countP_cons]
      have hsame : dead.countP (fun i => ((vacated.advance d).objects.position k i).isSome) =
          dead.countP fun i => (heap.objects.position k i).isSome := by
        apply countP_congr
        intro i hi
        rw [position, position, hlocations, if_neg (hother i hi)]
      rw [hsame]
      by_cases hk : location.kind = k
      · subst hk
        have hpos : heap.objects.position location.kind d = some location.index := position_eq_some.mpr hd
        simp only [hpos, update_self, Option.isSome_some, if_true]
        omega
      · have hpos : heap.objects.position k d = none := by
          rw [position, hd]
          simp [hk]
        simp only [hpos, update_of_ne (Ne.symm hk)]
        simp

/-! ### Dead slots -/

/-- The slots of a kind. -/
def directoriesOf (s : ObjectStorage P) (kind : PayloadKind) : List Nat :=
  if kind = .interface then s.interfaceDirectories else (s.stores kind).map Entry.directory

variable {s : ObjectStorage P}

theorem mem_directoriesOf (h : Consistent s) (kind : PayloadKind) (i : Nat) :
    i ∈ directoriesOf s kind ↔ (s.position kind i).isSome := by
  unfold directoriesOf
  by_cases hkind : kind = .interface
  · rw [if_pos hkind, hkind]
    exact h.listed i
  · rw [if_neg hkind, mem_map]
    constructor
    · rintro ⟨e, he, rfl⟩
      obtain ⟨j, hj, rfl⟩ := getElem_of_mem he
      rw [(h.indexed kind hkind).row (getElem?_eq_getElem hj)]
      rfl
    · intro hi
      obtain ⟨j, hj⟩ := Option.isSome_iff_exists.mp hi
      obtain ⟨e, he, rfl⟩ := (h.indexed kind hkind).entry hj
      exact ⟨e, mem_of_getElem? he, rfl⟩

theorem nodup_directoriesOf (h : Consistent s) (kind : PayloadKind) :
    (directoriesOf s kind).Nodup := by
  unfold directoriesOf
  split
  · exact h.nodup
  · exact (h.indexed kind ‹_›).nodup

def kindOrder : List PayloadKind :=
  [.plain .string, .plain .tuple, .plain .range, .plain .hostRoot, .plain .hostPath, .plain .ephemeral,
    .plain .native, .plain .enum, .struct, .interface, .plain .closure, .cell]

theorem mem_kindOrder (kind : PayloadKind) : kind ∈ kindOrder := by
  cases kind with
  | plain kind => cases kind <;> decide
  | struct => decide
  | interface => decide
  | cell => decide

theorem occupiedDirectories_eq (s : ObjectStorage P) :
    s.occupiedDirectories = kindOrder.flatMap (directoriesOf s) := by
  simp [occupiedDirectories, kindOrder, directoriesOf]

theorem mem_occupiedDirectories (h : Consistent s) (i : Nat) :
    i ∈ s.occupiedDirectories ↔ (s.locationAt i).isSome := by
  rw [occupiedDirectories_eq, mem_flatMap]
  constructor
  · rintro ⟨kind, -, hi⟩
    rw [mem_directoriesOf h] at hi
    obtain ⟨j, hj⟩ := Option.isSome_iff_exists.mp hi
    rw [position_eq_some.mp hj]
    rfl
  · intro hi
    obtain ⟨⟨kind, j⟩, hloc⟩ := Option.isSome_iff_exists.mp hi
    refine ⟨kind, mem_kindOrder kind, (mem_directoriesOf h kind i).mpr ?_⟩
    rw [position_eq_some.mpr hloc]
    rfl

theorem nodup_occupiedDirectories (h : Consistent s) : s.occupiedDirectories.Nodup := by
  rw [occupiedDirectories_eq, nodup_flatMap]
  refine ⟨fun kind _ => nodup_directoriesOf h kind, ?_⟩
  have hkinds : kindOrder.Nodup := by decide
  refine hkinds.imp fun {a b} hne i ha hb => hne ?_
  rw [mem_directoriesOf h] at ha hb
  obtain ⟨j, hj⟩ := Option.isSome_iff_exists.mp ha
  obtain ⟨j', hj'⟩ := Option.isSome_iff_exists.mp hb
  rw [position_eq_some] at hj hj'
  rw [hj] at hj'
  exact congrArg PayloadLocation.kind (Option.some.inj hj')

theorem mem_deadDirectories (h : Consistent heap.objects) (live : HeapObjectId → Bool) (i : Nat) :
    i ∈ heap.deadDirectories live ↔
      (heap.objects.locationAt i).isSome ∧ live (heap.identityAt i) = false := by
  rw [deadDirectories, mem_filter, mem_occupiedDirectories h]
  simp

theorem nodup_deadDirectories (h : Consistent heap.objects) (live : HeapObjectId → Bool) :
    (heap.deadDirectories live).Nodup := (nodup_occupiedDirectories h).filter _

section Marks

variable {vacated : GcHeap P D} {counts : DetachedCounts} {dead : List Nat}

theorem Retired.stores (hr : Retired heap vacated (fun _ => 0) counts dead) :
    vacated.objects.stores = heap.objects.stores := by rw [hr.objects]

theorem Retired.bytes (hr : Retired heap vacated (fun _ => 0) counts dead) :
    vacated.objects.structBytes = heap.objects.structBytes := by rw [hr.objects]

theorem Retired.listed (hr : Retired heap vacated (fun _ => 0) counts dead) :
    vacated.objects.interfaceDirectories = heap.objects.interfaceDirectories := by rw [hr.objects]

theorem Retired.position (hr : Retired heap vacated (fun _ => 0) counts dead) (k : PayloadKind) (i : Nat) :
    vacated.objects.position k i = if i ∈ dead then none else heap.objects.position k i := by
  rw [ObjectStorage.position, hr.locations]
  split <;> rfl

theorem Retired.marked (hr : Retired heap vacated (fun _ => 0) counts dead) (h : Consistent heap.objects)
    (hk : k ≠ .interface) :
    Dense.Marked (vacated.objects.stores k) (vacated.objects.position k) vacated.objects.alive := by
  rw [hr.stores]
  refine (h.indexed k hk).mark fun i => ?_
  rw [hr.position, ObjectStorage.alive, hr.locations]
  by_cases hi : i ∈ dead
  · simp [hi]
  · rw [if_neg hi, if_neg hi]
    split
    · rfl
    · rename_i hnone
      have hvac : heap.objects.locationAt i = none := by simpa using hnone
      rw [ObjectStorage.position, hvac]
      rfl

/-- The counts of the sweep are those of the dead rows. -/
theorem Retired.deadRows (hr : Retired heap vacated (fun _ => 0) counts dead) (h : Consistent heap.objects)
    (hdead : dead.Nodup) (hk : k ≠ .interface) : counts k = vacated.objects.deadRows k := by
  have hrows : vacated.objects.deadRows k =
      ((directoriesOf heap.objects k).filter fun i => decide (i ∈ dead)).length := by
    rw [ObjectStorage.deadRows, hr.stores, directoriesOf, if_neg hk, ← countP_eq_length_filter, countP_map]
    apply countP_congr
    intro e he
    have hlocd : (heap.objects.locationAt e.directory).isSome := by
      obtain ⟨j, hj, rfl⟩ := getElem_of_mem he
      rw [position_eq_some.mp ((h.indexed k hk).row (getElem?_eq_getElem hj))]
      rfl
    simp only [ObjectStorage.alive, hr.locations, comp_apply]
    by_cases hi : e.directory ∈ dead <;> simp [hi, hlocd]
  rw [hr.counts, Nat.zero_add, hrows, countP_eq_length_filter]
  apply List.Perm.length_eq
  rw [perm_ext_iff_of_nodup (hdead.filter _) ((nodup_directoriesOf h k).filter _)]
  intro i
  simp [mem_directoriesOf h, and_comm]

theorem Retired.nodup_listed (hr : Retired heap vacated (fun _ => 0) counts dead) (h : Consistent heap.objects) :
    (vacated.objects.extractInterfaces (counts .interface)).interfaceDirectories.Nodup := by
  unfold extractInterfaces
  split
  · rw [hr.listed]
    exact h.nodup
  · simp only [hr.listed]
    exact h.nodup.filter _

theorem Retired.mem_listed (hr : Retired heap vacated (fun _ => 0) counts dead) (h : Consistent heap.objects)
    (i : Nat) : i ∈ (vacated.objects.extractInterfaces (counts .interface)).interfaceDirectories ↔
      (vacated.objects.position .interface i).isSome := by
  rw [hr.position]
  unfold extractInterfaces
  split
  · -- no wrapper is dead
    rename_i hzero
    rw [hr.counts, Nat.zero_add, countP_eq_zero] at hzero
    rw [hr.listed, h.listed]
    split
    · rename_i hi
      simpa using hzero i hi
    · rfl
  · simp only [hr.listed, mem_filter, h.listed, hr.locations]
    by_cases hi : i ∈ dead
    · simp [hi]
    · rw [if_neg hi, if_neg hi]
      constructor
      · exact fun hboth => hboth.1
      · intro hsome
        obtain ⟨j, hj⟩ := Option.isSome_iff_exists.mp hsome
        exact ⟨hsome, by rw [position_eq_some.mp hj]; rfl⟩

/-- The storage after the sweep, when slots were vacated. -/
theorem Retired.detached (hr : Retired heap vacated (fun _ => 0) counts dead) (h : Sound heap) (hdead : dead.Nodup) :
    let swept : GcHeap P D := { vacated with objects := vacated.objects.detachMarked counts }
    Consistent swept.objects ∧ swept.arena = dead.foldl Arena.retire heap.arena ∧
      (∀ i, swept.contents i = if i ∈ dead then none else heap.contents i) ∧
      (∀ i, (swept.objects.locationAt i).map PayloadLocation.kind =
        if i ∈ dead then none else (heap.objects.locationAt i).map PayloadLocation.kind) ∧
      ∀ i j, swept.objects.locationAt i = some ⟨.interface, j⟩ →
        i ∉ dead ∧ heap.objects.locationAt i = some ⟨.interface, j⟩ := by
  intro swept
  have hmrk (k : PayloadKind) (hk : k ≠ .interface) := hr.marked h.consistent hk
  have hcnts (k : PayloadKind) (hk : k ≠ .interface) := hr.deadRows h.consistent hdead hk
  have htiled : ObjectStorage.Tiled (vacated.objects.stores .struct) 0 vacated.objects.structBytes.length := by
    rw [hr.stores, hr.bytes]
    exact h.consistent.tiled
  obtain ⟨done, hdone, hiface, hdet, hlist⟩ := detachMarked_detaching hmrk htiled hcnts
  have hkinds (i : Nat) : (swept.objects.locationAt i).map PayloadLocation.kind =
      if i ∈ dead then none else (heap.objects.locationAt i).map PayloadLocation.kind := by
    rw [show swept.objects.locationAt i = (vacated.objects.detachMarked counts).locationAt i from rfl,
      hdet.kinds, hr.locations]
    split <;> rfl
  have hcons : Consistent swept.objects := by
    refine ⟨fun k hk => hdet.finished k (hdone k hk), ?_, fun i => ?_, hdet.tiled (hdone _ (by simp))⟩
    · rw [hlist]
      exact hr.nodup_listed h.consistent
    · rw [hlist, hr.mem_listed h.consistent, hdet.position hiface]
  have hcont (i : Nat) : swept.contents i = if i ∈ dead then none else heap.contents i := by
    have hi := hkinds i
    split
    · rename_i hdead
      rw [if_pos hdead, Option.map_eq_none_iff] at hi
      rw [contents, hi]
      rfl
    · rename_i halive
      rw [if_neg halive] at hi
      cases hold : heap.objects.locationAt i with
      | none =>
        rw [hold, Option.map_none, Option.map_eq_none_iff] at hi
        rw [contents, contents, hi, hold]
        rfl
      | some old =>
        obtain ⟨k, j⟩ := old
        rw [hold, Option.map_some, Option.map_eq_some_iff] at hi
        obtain ⟨⟨k', j'⟩, hnew, hkk⟩ := hi
        obtain rfl : k' = k := hkk
        have hvacd : vacated.objects.locationAt i = some ⟨k', j⟩ := by rw [hr.locations, if_neg halive, hold]
        refine contents_eq_of_find h.consistent hcons hold hnew (fun hk => ?_) fun hk => ?_
        · have hrows := hdet.rows k' i (by rw [ObjectStorage.alive, hvacd]; rfl)
          rw [shown, shown, hr.stores, hr.bytes] at hrows
          exact hrows
        · subst hk
          rw [((hdet.pending _ hiface).2 i j').mp hnew] at hvacd
          obtain rfl := (PayloadLocation.mk.inj (Option.some.inj hvacd)).2
          exact congrArg (InterfaceStore.directoryBinding · j') hr.interfaces
  refine ⟨hcons, ?_, hcont, hkinds, fun i j hloc => ?_⟩
  rotate_left
  · have hvacd := ((hdet.pending _ hiface).2 i j).mp hloc
    rw [hr.locations] at hvacd
    split at hvacd
    · cases hvacd
    · exact ⟨‹_›, hvacd⟩
  rw [← hr.arena]
  have hmarkedContents (i : Nat) : vacated.contents i = if i ∈ dead then none else heap.contents i := by
    rw [contents, hr.locations]
    split
    · rfl
    · rw [contents]
      have hget : vacated.get = heap.get := by
        funext location
        unfold GcHeap.get structureAt
        rw [hr.stores, hr.bytes, hr.interfaces]
      rw [hget]
  have hsame : swept.contents = vacated.contents := by
    funext i
    rw [hcont, hmarkedContents]
  exact congrArg₂ (fun generations contents => Arena.mk generations contents vacated.free) hdet.generations hsame

end Marks

/-! ### Snapshots -/

end GcHeap

namespace InterfaceStore

variable {D : Type} {store : InterfaceStore D} {live : InterfaceSnapshotId → Bool}

theorem detach_slots (store : InterfaceStore D) (live : InterfaceSnapshotId → Bool) (j : Nat) :
    (store.detach live).slots[j]? = (store.slots[j]?).map (detachSlot live j) := by
  rw [detach, getElem?_mapIdx]

theorem directoryBinding_eq (store : InterfaceStore D) (j : Nat) : store.directoryBinding j =
    (store.slots[j]?).bind fun slot => slot.interface.map fun _ => ⟨j, slot.generation⟩ := by
  unfold directoryBinding
  cases store.slots[j]? with
  | none => rfl
  | some slot =>
    simp only [Option.bind_eq_bind, Option.bind_some]
    cases slot.interface <;> rfl

/-- A snapshot that is marked stays. -/
theorem directoryBinding_detach {j : Nat} (h : store.directoryBinding j = some id)
    (hlive : live id = true) : (store.detach live).directoryBinding j = some id := by
  rw [directoryBinding_eq] at h ⊢
  rw [detach_slots]
  obtain ⟨slot, hslot, hiface⟩ := Option.bind_eq_some_iff.mp h
  obtain ⟨interface, hsome, rfl⟩ := Option.map_eq_some_iff.mp hiface
  simp [hslot, detachSlot, hlive, hsome]

/-- No snapshot appears. -/
theorem directoryBinding_detach_none {j : Nat} (h : store.directoryBinding j = none) :
    (store.detach live).directoryBinding j = none := by
  rw [directoryBinding_eq] at h ⊢
  rw [detach_slots]
  cases hslot : store.slots[j]? with
  | none => rfl
  | some slot =>
    simp only [hslot, Option.bind_some, Option.map_eq_none_iff] at h
    simp [detachSlot, h]

theorem mem_freed {i : Nat} :
    i ∈ ((store.slots.zipIdx.filter fun (slot, index) => frees live index slot).map Prod.snd).reverse ↔
      ∃ slot, store.slots[i]? = some slot ∧ frees live i slot = true := by
  simp only [mem_reverse, mem_map, mem_filter, Prod.exists]
  constructor
  · rintro ⟨slot, index, ⟨hmem, hfrees⟩, rfl⟩
    rw [mem_zipIdx_iff_getElem?] at hmem
    exact ⟨slot, hmem, hfrees⟩
  · rintro ⟨slot, hslot, hfrees⟩
    exact ⟨slot, i, ⟨mem_zipIdx_iff_getElem?.mpr hslot, hfrees⟩, rfl⟩

theorem nodup_freed : ((store.slots.zipIdx.filter fun (slot, index) => frees live index slot).map Prod.snd).reverse.Nodup := by
  rw [nodup_reverse]
  have hall : (store.slots.zipIdx.map Prod.snd).Nodup := by
    rw [zipIdx_map_snd]
    exact nodup_range'
  exact hall.sublist (filter_sublist.map _)

theorem FreeVacant.detach (h : store.FreeVacant) (live : InterfaceSnapshotId → Bool) :
    (store.detach live).FreeVacant where
  nodup := by
    refine nodup_append.mpr ⟨nodup_freed, h.nodup, fun a ha b hb => ?_⟩
    rintro rfl
    obtain ⟨slot, hslot, hfrees⟩ := mem_freed.mp ha
    have hnone := h.vacant a hb
    rw [directoryBinding_eq, hslot, Option.bind_some, Option.map_eq_none_iff] at hnone
    simp [frees, hnone] at hfrees
  vacant i hi := by
    rcases mem_append.mp hi with hfreed | hold
    · obtain ⟨slot, hslot, hfrees⟩ := mem_freed.mp hfreed
      simp only [frees, Bool.and_eq_true, Bool.not_eq_true'] at hfrees
      rw [directoryBinding_eq, detach_slots, hslot]
      have hsome : slot.interface.isNone = false := by simpa using hfrees.1.2
      simp [detachSlot, hfrees.1.1, hsome]
    · exact directoryBinding_detach_none (h.vacant i hold)

/-- A new snapshot is in a vacant slot, and the others stay. -/
theorem insert_spec (h : store.FreeVacant) {reserve : Bool} {interface : D} {store' : InterfaceStore D}
    (hins : store.insert reserve interface = some (store', id)) :
    store'.FreeVacant ∧
      ∀ {j bound}, store.directoryBinding j = some bound → store'.directoryBinding j = some bound := by
  unfold insert at hins
  split at hins
  · rename_i slot free hfree
    split at hins
    · cases hins
    · rename_i record hrec
      cases hins
      have hbinding (j : Nat) (hj : j ≠ slot) :
          directoryBinding ⟨store.slots.set slot { record with interface := some interface }, free⟩ j =
            store.directoryBinding j := by
        rw [directoryBinding_eq, directoryBinding_eq, List.getElem?_set_ne (Ne.symm hj)]
      have hnd := h.nodup
      rw [hfree, List.nodup_cons] at hnd
      refine ⟨⟨hnd.2, fun i hi => ?_⟩, fun {j bound} hj => ?_⟩
      · rw [hbinding i fun heq => hnd.1 (heq ▸ hi)]
        exact h.vacant i (by rw [hfree]; exact List.mem_cons_of_mem _ hi)
      · rw [hbinding j, hj]
        rintro rfl
        rw [h.vacant j (by simp [hfree])] at hj
        cases hj
  · rename_i hfree
    split at hins
    · cases hins
    · cases hins
      refine ⟨⟨.nil, fun i hi => by cases hi⟩, fun {j bound} hj => ?_⟩
      rw [directoryBinding_eq] at hj ⊢
      obtain ⟨record, hrec, hbnd⟩ := Option.bind_eq_some_iff.mp hj
      rw [List.getElem?_append_left (List.getElem?_eq_some_iff.mp hrec).1, hrec]
      exact hbnd

end InterfaceStore

namespace GcHeap

open ObjectStorage

variable {P : PlainKind → Type} {D : Type} {heap : GcHeap P D}

/-- Snapshots that the wrappers locate are still there. -/
theorem Sound.snapshots_kept (h : Sound heap) {interfaces : InterfaceStore D} (hvac : interfaces.FreeVacant)
    (hkept : ∀ i j, heap.objects.locationAt i = some ⟨.interface, j⟩ →
      interfaces.directoryBinding j = heap.interfaces.directoryBinding j) :
    Sound { heap with interfaces } ∧ ∀ i, contents { heap with interfaces } i = heap.contents i := by
  have hcont (i : Nat) : contents { heap with interfaces } i = heap.contents i := by
    change (heap.objects.locationAt i).bind _ = (heap.objects.locationAt i).bind _
    cases hloc : heap.objects.locationAt i with
    | none => rfl
    | some location =>
      obtain ⟨kind, j⟩ := location
      cases kind with
      | interface => exact congrArg (Option.map _) (hkept i j hloc)
      | plain kind => rfl
      | struct => rfl
      | cell => rfl
  refine ⟨⟨h.consistent, fun i hi => ?_, hvac, h.capacity⟩, hcont⟩
  rw [hcont]
  exact h.resolves i hi

/-- The objects of the sweep, before the snapshots. -/
def detachDead (heap : GcHeap P D) (live : HeapObjectId → Bool) : GcHeap P D :=
  if (heap.deadDirectories live).isEmpty then heap
  else
    let swept := (heap.deadDirectories live).foldl retire (heap, fun _ => 0)
    { swept.1 with objects := swept.1.objects.detachMarked swept.2 }

theorem sweep_eq (heap : GcHeap P D) (live : HeapObjectId → Bool) (held : List InterfaceSnapshotId) :
    heap.sweep live held = { heap.detachDead live with
      interfaces := (heap.detachDead live).interfaces.detach fun id =>
        decide (id ∈ heap.locatedSnapshots live ++ held) } := by
  unfold sweep detachDead
  dsimp only

/-- The rows of the dead objects go. -/
theorem detachDead_refines (h : Sound heap) (live : HeapObjectId → Bool) :
    Sound (heap.detachDead live) ∧ (heap.detachDead live).owner = heap.owner ∧
      (heap.detachDead live).interfaces = heap.interfaces ∧
      (heap.detachDead live).arena = (heap.deadDirectories live).foldl Arena.retire heap.arena ∧
      ∀ i j, (heap.detachDead live).objects.locationAt i = some ⟨.interface, j⟩ →
        live (heap.identityAt i) = true ∧ heap.objects.locationAt i = some ⟨.interface, j⟩ := by
  unfold detachDead
  have hdead := mem_deadDirectories h.consistent live
  have hnd := nodup_deadDirectories h.consistent live
  generalize heap.deadDirectories live = dead at hdead hnd ⊢
  -- a slot that is not dead and has a location is live
  have hlive (i : Nat) (hi : i ∉ dead) {j : Nat} (hloc : heap.objects.locationAt i = some ⟨.interface, j⟩) :
      live (heap.identityAt i) = true := by
    by_contra hnot
    exact hi ((hdead i).mpr ⟨by rw [hloc]; rfl, by simpa using hnot⟩)
  by_cases hemp : dead.isEmpty
  · rw [if_pos hemp]
    obtain rfl := isEmpty_iff.mp hemp
    exact ⟨h, rfl, rfl, rfl, fun i j hloc => ⟨hlive i (by simp) hloc, hloc⟩⟩
  · rw [if_neg hemp]
    have hr := foldl_retire dead heap (fun _ => 0) hnd fun d hd => ((hdead d).mp hd).1
    obtain ⟨hcons, harena, hcont, hkinds, hiface⟩ := hr.detached h hnd
    refine ⟨⟨hcons, fun i hi => ?_, ?_, ?_⟩, hr.owner, hr.interfaces, harena, fun i j hloc => ?_⟩
    · rw [hcont]
      have hkind := hkinds i
      split
      · rename_i hdead
        rw [if_pos hdead, Option.map_eq_none_iff] at hkind
        rw [hkind] at hi
        cases hi
      · rename_i halive
        rw [if_neg halive] at hkind
        apply h.resolves
        have := congrArg Option.isSome hkind
        simpa [hi] using this
    · simp only [hr.interfaces]
      exact h.snapshots
    · have hlen := congrArg (fun a => a.generations.length) harena
      simp only [Arena.length_foldl_retire, arena, length_map] at hlen
      exact hlen.trans_le h.capacity
    · obtain ⟨hi, hold⟩ := hiface i j hloc
      exact ⟨hlive i hi hold, hold⟩

/-- The snapshot that a live wrapper locates is marked. -/
theorem mem_locatedSnapshots (h : Consistent heap.objects) {live : HeapObjectId → Bool} {i j : Nat}
    {snapshot : InterfaceSnapshotId} (hlive : live (heap.identityAt i) = true)
    (hi : heap.objects.locationAt i = some ⟨.interface, j⟩)
    (hsnap : heap.interfaces.directoryBinding j = some snapshot) : snapshot ∈ heap.locatedSnapshots live := by
  refine mem_filterMap.mpr ⟨i, mem_filter.mpr ⟨?_, hlive⟩, ?_⟩
  · rw [h.listed, position_eq_some.mpr hi]
    rfl
  · simp [hi, hsnap]

/-- A sweep retires the dead objects, and nothing else changes. -/
theorem sweep_refines (h : Sound heap) (live : HeapObjectId → Bool) (held : List InterfaceSnapshotId) :
    Sound (heap.sweep live held) ∧ (heap.sweep live held).owner = heap.owner ∧
      (heap.sweep live held).arena = (heap.deadDirectories live).foldl Arena.retire heap.arena := by
  obtain ⟨hsnd, hown, hifcs, harena, hlocd⟩ := detachDead_refines h live
  rw [sweep_eq]
  obtain ⟨hkept, hcont⟩ := hsnd.snapshots_kept
    (hsnd.snapshots.detach fun id => decide (id ∈ heap.locatedSnapshots live ++ held)) fun i j hloc => by
      obtain ⟨hlive, hold⟩ := hlocd i j hloc
      have hsome := hsnd.resolves i (by rw [hloc]; rfl)
      rw [contents, hloc, Option.bind_some, get_interface, Option.isSome_map] at hsome
      obtain ⟨snapshot, hsnap⟩ := Option.isSome_iff_exists.mp hsome
      rw [hsnap]
      refine InterfaceStore.directoryBinding_detach hsnap ?_
      rw [hifcs] at hsnap
      exact decide_eq_true (mem_append_left _ (mem_locatedSnapshots h.consistent hlive hold hsnap))
  exact ⟨hkept, hown, (congrArg (fun contents => Arena.mk _ contents _) (funext hcont)).trans harena⟩

end GcHeap

end Kagari.Runtime
