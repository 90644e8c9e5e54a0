import Mathlib.Data.List.Nodup

/-!
# Dense stores behind a directory

A store is a list of rows without holes. Each row carries the directory entry it belongs to, and the
directory has the row's position: `Indexed` says that the two agree, so every row has exactly one entry.

Rows move when one is removed (`swapRemove` fills the hole with the last row) and when the rows of dead
entries are dropped (`filter`); the directory's positions move with them.
-/

namespace Lib

open Function List

structure Entry (T : Type) where
  directory : Nat
  payload : T

variable {position' : Nat → Option Nat}

namespace Dense

variable {T : Type}

/-- `Vec::swap_remove`, without the removed row. -/
def swapRemove (store : List (Entry T)) (index : Nat) : List (Entry T) :=
  match store.getLast? with
  | none => []
  | some last => (store.set index last).dropLast

/-- The row of a directory entry. -/
def find (store : List (Entry T)) (d : Nat) : Option (Entry T) := store.find? fun e => e.directory == d

theorem mem_swapRemove {store : List (Entry T)} {index : Nat} {e : Entry T} (he : e ∈ swapRemove store index) :
    e ∈ store := by
  unfold swapRemove at he
  split at he
  · cases he
  · rename_i last hlast
    rcases mem_or_eq_of_mem_set (dropLast_subset _ he) with h | rfl
    · exact h
    · exact mem_of_getLast? hlast

theorem find_filter (store : List (Entry T)) {alive : Nat → Bool} {d : Nat} (hd : alive d = true) :
    find (store.filter fun e => alive e.directory) d = find store d := by
  rw [find, find?_filter]
  congr 1
  funext e
  by_cases h : e.directory = d
  · simp [h, hd]
  · simp [h]

/-- The directory's positions of a store are those of its rows. -/
structure Indexed (store : List (Entry T)) (position : Nat → Option Nat) : Prop where
  row : ∀ {j e}, store[j]? = some e → position e.directory = some j
  entry : ∀ {d j}, position d = some j → ∃ e, store[j]? = some e ∧ e.directory = d

namespace Indexed

variable {store : List (Entry T)} {position : Nat → Option Nat}

theorem empty : Indexed ([] : List (Entry T)) fun _ => none where
  row h := by simp at h
  entry h := by cases h

theorem congr (h : Indexed store position) (heq : ∀ d, position' d = position d) :
    Indexed store position' := by
  rwa [funext heq]

theorem nodup (h : Indexed store position) : (store.map Entry.directory).Nodup := by
  rw [nodup_iff_injective_getElem]
  intro i j hij
  have hi := h.row (getElem?_eq_getElem (by simpa using i.isLt))
  have hj := h.row (getElem?_eq_getElem (by simpa using j.isLt))
  simp only [getElem_map] at hij
  rw [hij, hj] at hi
  exact Fin.ext (Option.some.inj hi).symm

theorem push (h : Indexed store position) {d : Nat} (hd : position d = none) (payload : T) :
    Indexed (store ++ [⟨d, payload⟩]) (update position d (some store.length)) where
  row {j e} hj := by
    rcases Nat.lt_or_ge j store.length with hlt | hge
    · rw [List.getElem?_append_left hlt] at hj
      have hrow := h.row hj
      rw [update_of_ne, hrow]
      rintro rfl
      rw [hd] at hrow
      cases hrow
    · rw [List.getElem?_append_right hge] at hj
      obtain ⟨hzero, rfl⟩ : j - store.length = 0 ∧ (⟨d, payload⟩ : Entry T) = e := by
        simpa [List.getElem?_singleton] using hj
      rw [update_self]
      exact congrArg some (by omega)
  entry {d' j} hj := by
    by_cases hd' : d' = d
    · subst hd'
      rw [update_self] at hj
      cases hj
      exact ⟨⟨d', payload⟩, by simp, rfl⟩
    · rw [update_of_ne hd'] at hj
      obtain ⟨e, he, hed⟩ := h.entry hj
      refine ⟨e, ?_, hed⟩
      rwa [List.getElem?_append_left (List.getElem?_eq_some_iff.mp he).1]

variable {store' : List (Entry T)} {last : Entry T}

/-- The entries of the rows are what matters. -/
theorem congr_directories (h : Indexed store position)
    (heq : store'.map Entry.directory = store.map Entry.directory) : Indexed store' position := by
  have hget (j : Nat) : (store'[j]?).map Entry.directory = (store[j]?).map Entry.directory := by
    rw [← getElem?_map, ← getElem?_map, heq]
  refine ⟨fun {j e} he => ?_, fun {d j} hj => ?_⟩
  · have hj := hget j
    rw [he] at hj
    obtain ⟨e', he', hdir⟩ := Option.map_eq_some_iff.mp hj.symm
    rw [← hdir]
    exact h.row he'
  · obtain ⟨e, he, rfl⟩ := h.entry hj
    have hj := hget j
    rw [he] at hj
    exact Option.map_eq_some_iff.mp hj

/-- An edited payload stays where it is. -/
theorem modify (h : Indexed store position) (i : Nat) (f : T → T) :
    Indexed (store.modify i fun e => { e with payload := f e.payload }) position where
  row {j e} hj := by
    rw [getElem?_modify] at hj
    obtain ⟨e', he', rfl⟩ := Option.map_eq_some_iff.mp hj
    have hrow := h.row he'
    split <;> exact hrow
  entry {d j} hj := by
    obtain ⟨e, he, hed⟩ := h.entry hj
    refine ⟨if i = j then { e with payload := f e.payload } else e, ?_, by split <;> exact hed⟩
    rw [getElem?_modify, he]
    split <;> rfl

theorem getElem?_swapRemove {index i : Nat} (hlast : store.getLast? = some last)
    (hidx : index < store.length) :
    (swapRemove store index)[i]? =
      if i + 1 < store.length then (if i = index then some last else store[i]?) else none := by
  simp only [swapRemove, hlast, getElem?_dropLast, length_set]
  by_cases hi : i + 1 < store.length
  · rw [if_pos (by omega), if_pos hi, getElem?_set]
    by_cases h : i = index
    · subst h
      rw [if_pos rfl, if_pos (by omega), if_pos rfl]
    · rw [if_neg (Ne.symm h), if_neg h]
  · rw [if_neg (by omega), if_neg hi]

theorem swapRemove (h : Indexed store position) {d index : Nat} (hd : position d = some index)
    (hlast : store.getLast? = some last) :
    Indexed (swapRemove store index) fun d' =>
      if d' = d then none else if d' = last.directory then some index else position d' := by
  obtain ⟨removed, hremd, hdir⟩ := h.entry hd
  have hlt : index < store.length := (List.getElem?_eq_some_iff.mp hremd).1
  have hend : store[store.length - 1]? = some last := by rw [← List.getLast?_eq_getElem?, hlast]
  have hlastRow := h.row hend
  constructor
  · intro i e he
    rw [getElem?_swapRemove hlast hlt] at he
    split at he
    · rename_i hi
      split at he
      · -- the hole holds the last row
        rename_i hidx
        cases he
        have hne : last.directory ≠ d := by
          intro heq
          rw [heq, hd] at hlastRow
          have := Option.some.inj hlastRow
          omega
        simp [hne, hidx]
      · rename_i hidx
        have hrow := h.row he
        have hne : e.directory ≠ d := by
          intro heq
          rw [heq, hd] at hrow
          exact hidx (Option.some.inj hrow).symm
        have hnotLast : e.directory ≠ last.directory := by
          intro heq
          rw [heq, hlastRow] at hrow
          have := Option.some.inj hrow
          omega
        simp [hne, hnotLast, hrow]
    · cases he
  · intro d' j hj
    split at hj
    · cases hj
    · rename_i hne
      split at hj
      · rename_i hd'
        cases hj
        refine ⟨last, ?_, hd'.symm⟩
        rw [getElem?_swapRemove hlast hlt, if_pos, if_pos rfl]
        have hneq : index ≠ store.length - 1 := by
          intro heq
          rw [heq, hend] at hremd
          cases hremd
          exact hne (hd'.trans hdir)
        omega
      · rename_i hnotLast
        obtain ⟨e, he, hed⟩ := h.entry hj
        have hjlt := (List.getElem?_eq_some_iff.mp he).1
        have hjne : j ≠ index := by
          rintro rfl
          rw [hremd] at he
          cases he
          exact hne (hed.symm.trans hdir)
        have hjlast : j ≠ store.length - 1 := by
          rintro rfl
          rw [hend] at he
          cases he
          exact hnotLast hed.symm
        refine ⟨e, ?_, hed⟩
        rw [getElem?_swapRemove hlast hlt, if_pos (by omega), if_neg hjne, he]

/-- A row is found under its entry. -/
theorem find_of_mem (h : Indexed store position) {e : Entry T} (he : e ∈ store) :
    find store e.directory = some e := by
  obtain ⟨j, hj, rfl⟩ := getElem_of_mem he
  cases hfind : find store store[j].directory with
  | none =>
    have := find?_eq_none.mp hfind store[j] he
    simp at this
  | some e' =>
    have hdir : e'.directory = store[j].directory := by simpa using find?_some hfind
    obtain ⟨i, hi, rfl⟩ := getElem_of_mem (mem_of_find?_eq_some hfind)
    have hpos := h.row (getElem?_eq_getElem hi)
    rw [hdir, h.row (getElem?_eq_getElem hj)] at hpos
    cases hpos
    rfl

theorem at_position (h : Indexed store position) {d j : Nat} (hd : position d = some j) :
    store[j]? = find store d := by
  obtain ⟨e, he, rfl⟩ := h.entry hd
  rw [he, h.find_of_mem (mem_of_getElem? he)]

/-- Rows that are left are the ones that were there. -/
theorem find_of_subset (h : Indexed store position)
    (h' : Indexed store' position') (hsub : ∀ e ∈ store', e ∈ store) {d j : Nat} (hd : position' d = some j) :
    find store' d = find store d := by
  obtain ⟨e, he, rfl⟩ := h'.entry hd
  have hmem := mem_of_getElem? he
  rw [h'.find_of_mem hmem, h.find_of_mem (hsub e hmem)]

end Indexed

/-! ## Dead entries

The rows of dead entries are still in the store, and the directory no longer has them. -/

structure Marked (store : List (Entry T)) (position : Nat → Option Nat) (alive : Nat → Bool) : Prop where
  nodup : (store.map Entry.directory).Nodup
  row : ∀ {j e}, store[j]? = some e → alive e.directory = true → position e.directory = some j
  entry : ∀ {d j}, position d = some j → alive d = true ∧ ∃ e, store[j]? = some e ∧ e.directory = d

variable {store : List (Entry T)} {position : Nat → Option Nat} {alive : Nat → Bool}

theorem Indexed.mark (h : Indexed store position)
    (hpos : ∀ d, position' d = if alive d then position d else none) : Marked store position' alive where
  nodup := h.nodup
  row he halive := by rw [hpos, if_pos halive, h.row he]
  entry {d j} hj := by
    rw [hpos] at hj
    split at hj
    · exact ⟨‹_›, h.entry hj⟩
    · cases hj

namespace Marked

theorem indexed (h : Marked store position alive) (hall : ∀ e ∈ store, alive e.directory = true) :
    Indexed store position where
  row he := h.row he (hall _ (mem_of_getElem? he))
  entry hj := (h.entry hj).2

/-- The rows of live entries, at the positions they have among themselves. -/
theorem filter (h : Marked store position alive)
    (hrow : ∀ {j e}, (store.filter fun e => alive e.directory)[j]? = some e → position' e.directory = some j)
    (hold : ∀ {d j}, position' d = some j → ∃ i, position d = some i) :
    Indexed (store.filter fun e => alive e.directory) position' where
  row := hrow
  entry {d j} hj := by
    obtain ⟨i, hi⟩ := hold hj
    obtain ⟨halive, e, he, rfl⟩ := h.entry hi
    have hmem : e ∈ store.filter fun e => alive e.directory :=
      mem_filter.mpr ⟨mem_of_getElem? he, halive⟩
    obtain ⟨j', hj', hget⟩ := getElem_of_mem hmem
    have hget' := getElem?_eq_some_iff.mpr ⟨hj', hget⟩
    have hpos := hrow hget'
    rw [hj] at hpos
    cases hpos
    exact ⟨e, hget', rfl⟩

end Marked

end Dense

end Lib
