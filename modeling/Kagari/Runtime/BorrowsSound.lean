import Mathlib.Data.List.Perm.Basic
import Kagari.Runtime.Borrows

/-!
# Shared or unique, never both

The counts of an object are those of the records that frames hold (`Tallies`). A borrow adds a record
and counts it, leaving a frame takes its records away one by one, so the counts stay exact, and with
exact counts the test for a conflict sees every record that overlaps.
-/

namespace Kagari.Runtime

variable {O Y F : Type} [DecidableEq O] [DecidableEq F]

/-! ## Paths of one object -/

variable {entry : PathBorrowState F} {path : List F}

variable {slot : Nat} {kind : HostBorrowKind} {reserved allowed : Bool}

theorem pathSlot_some {paths : List (PathBorrowState F)}
    (h : pathSlot paths path = some (slot, entry)) :
    entry.path = path ∧ ∃ before after, paths = before ++ entry :: after ∧ before.length = slot := by
  unfold pathSlot at h
  obtain ⟨i, hi, hent⟩ := Option.bind_eq_some_iff.mp h
  obtain ⟨found, hfnd, heq⟩ := Option.map_eq_some_iff.mp hent
  obtain ⟨rfl, rfl⟩ := Prod.mk.inj heq
  obtain ⟨hlt, hpath, -⟩ := List.findIdx?_eq_some_iff_getElem.mp hi
  obtain ⟨_, hget⟩ := List.getElem?_eq_some_iff.mp hfnd
  rw [hget] at hpath
  refine ⟨of_decide_eq_true hpath, paths.take i, paths.drop (i + 1), ?_, ?_⟩
  · rw [← hget, List.getElem_cons_drop, List.take_append_drop]
  · rw [List.length_take]
    omega

theorem pathSlot_none {paths : List (PathBorrowState F)} :
    pathSlot paths path = none ↔ ∀ entry ∈ paths, entry.path ≠ path := by
  unfold pathSlot
  constructor
  · intro h entry hmem hpath
    cases hfind : paths.findIdx? fun entry => decide (entry.path = path) with
    | none => exact absurd hpath (by simpa using List.findIdx?_eq_none_iff.mp hfind entry hmem)
    | some i =>
      obtain ⟨hlt, -⟩ := List.findIdx?_eq_some_iff_getElem.mp hfind
      rw [hfind] at h
      simp [hlt] at h
  · intro h
    rw [List.findIdx?_eq_none_iff.mpr fun entry hmem => decide_eq_false (h entry hmem)]
    rfl

theorem swapRemove_perm {α : Type} (before after : List α) (item : α) :
    (swapRemove (before ++ item :: after) before.length).Perm (before ++ after) := by
  unfold swapRemove
  rcases List.eq_nil_or_concat after with rfl | ⟨rest, last, rfl⟩
  · simp
  · have hlast : (before ++ item :: rest.concat last).getLast? = some last := by
      rw [List.concat_eq_append, ← List.cons_append, ← List.append_assoc, List.getLast?_concat]
    rw [hlast]
    simp only [List.set_append_right, Nat.le_refl, Nat.sub_self, List.set_cons_zero,
      List.concat_eq_append]
    have hdrop : (before ++ last :: (rest ++ [last])).dropLast = before ++ last :: rest := by
      rw [← List.cons_append, ← List.append_assoc, List.dropLast_concat]
    rw [hdrop]
    exact List.Perm.append_left before (List.perm_append_singleton last rest).symm

/-! ## Exact counts -/

/-- How many of the records borrow this path of the object, in this way. -/
def held (records : List (FrameBorrowRecord O Y F)) (key : BorrowObjectKey O) (path : List F)
    (kind : HostBorrowKind) : Nat :=
  records.countP fun record =>
    decide (record.objectKey = key ∧ record.path = path ∧ record.borrowKind = kind)

/-- The entries of an object count the records: one entry a path, none without a record. -/
structure Tallies (records : List (FrameBorrowRecord O Y F)) (key : BorrowObjectKey O)
    (paths : List (PathBorrowState F)) : Prop where
  nodup : (paths.map PathBorrowState.path).Nodup
  exact : ∀ entry ∈ paths, ∀ kind, entry.count kind = held records key entry.path kind
  used : ∀ entry ∈ paths, ∃ kind, 0 < entry.count kind
  complete : ∀ record ∈ records, record.objectKey = key → ∃ entry ∈ paths, entry.path = record.path

variable {records records' : List (FrameBorrowRecord O Y F)} {key : BorrowObjectKey O}
  {paths : List (PathBorrowState F)}

theorem Tallies.perm (h : Tallies records key paths) (hperm : records.Perm records') :
    Tallies records' key paths := by
  refine ⟨h.nodup, fun entry hmem kind => ?_, h.used, fun record hmem => ?_⟩
  · rw [h.exact entry hmem kind]
    exact hperm.countP_eq _
  · exact h.complete record (hperm.mem_iff.mpr hmem)

theorem Tallies.perm_paths {paths' : List (PathBorrowState F)} (h : Tallies records key paths)
    (hperm : paths.Perm paths') : Tallies records key paths' := by
  refine ⟨(hperm.map _).nodup_iff.mp h.nodup, fun entry hmem => h.exact entry (hperm.mem_iff.mpr hmem),
    fun entry hmem => h.used entry (hperm.mem_iff.mpr hmem), fun record hmem hkey => ?_⟩
  obtain ⟨entry, hent, hpath⟩ := h.complete record hmem hkey
  exact ⟨entry, hperm.mem_iff.mp hent, hpath⟩

theorem held_cons (record : FrameBorrowRecord O Y F) (path : List F) (kind : HostBorrowKind) :
    held (record :: records) key path kind = held records key path kind +
      if record.objectKey = key ∧ record.path = path ∧ record.borrowKind = kind then 1 else 0 := by
  unfold held
  rw [List.countP_cons]
  simp

theorem held_eq_zero (h : ∀ record ∈ records, record.objectKey = key → record.path ≠ path)
    (kind : HostBorrowKind) : held records key path kind = 0 := by
  unfold held
  rw [List.countP_eq_zero]
  intro record hmem hmatch
  obtain ⟨hkey, hpath, -⟩ := of_decide_eq_true hmatch
  exact h record hmem hkey hpath

variable {record : FrameBorrowRecord O Y F}

/-- A record of another object is not counted. -/
theorem tallies_cons_other (hkey : record.objectKey ≠ key) :
    Tallies (record :: records) key paths ↔ Tallies records key paths := by
  have hheld : ∀ path kind, held (record :: records) key path kind = held records key path kind := by
    intro path kind
    rw [held_cons, if_neg fun h => hkey h.1, Nat.add_zero]
  constructor
  · intro h
    refine ⟨h.nodup, fun entry hmem kind => ?_, h.used, fun other hmem => ?_⟩
    · rw [h.exact entry hmem kind, hheld]
    · exact h.complete other (List.mem_cons_of_mem _ hmem)
  · intro h
    refine ⟨h.nodup, fun entry hmem kind => ?_, h.used, fun other hmem hother => ?_⟩
    · rw [h.exact entry hmem kind, hheld]
    · rcases List.mem_cons.mp hmem with rfl | hmem
      · exact absurd hother hkey
      · exact h.complete other hmem hother

/-- The records of other paths. -/
def apart (path : List F) (records : List (FrameBorrowRecord O Y F)) : List (FrameBorrowRecord O Y F) :=
  records.filter fun record => decide (record.path ≠ path)

omit [DecidableEq O] in
theorem apart_cons (h : record.path = path) :
    apart path (record :: records) = apart path records := by
  unfold apart
  rw [List.filter_cons_of_neg (by simpa using h)]

theorem held_apart {path other : List F} (h : other ≠ path) (kind : HostBorrowKind) :
    held (apart path records) key other kind = held records key other kind := by
  unfold held apart
  rw [List.countP_filter]
  refine List.countP_congr fun record _ => ?_
  simp only [decide_eq_true_eq, Bool.and_eq_true, and_iff_left_iff_imp]
  rintro ⟨-, rfl, -⟩
  exact h

/-- Entries of other paths count the records of other paths. -/
theorem tallies_apart (hpth : ∀ entry ∈ paths, entry.path ≠ path) :
    Tallies records key paths ↔
      Tallies (apart path records) key paths ∧ ∀ kind, held records key path kind = 0 := by
  constructor
  · intro h
    refine ⟨⟨h.nodup, fun entry hmem kind => ?_, h.used, fun record hmem => ?_⟩, fun kind => ?_⟩
    · rw [h.exact entry hmem kind, held_apart (hpth entry hmem)]
    · exact h.complete record (List.mem_of_mem_filter hmem)
    · refine held_eq_zero (fun record hmem hkey hpath => ?_) kind
      obtain ⟨entry, hent, heq⟩ := h.complete record hmem hkey
      exact hpth entry hent (heq.trans hpath)
  · rintro ⟨h, hzero⟩
    refine ⟨h.nodup, fun entry hmem kind => ?_, h.used, fun record hmem hkey => ?_⟩
    · rw [h.exact entry hmem kind, held_apart (hpth entry hmem)]
    · refine h.complete record (List.mem_filter.mpr ⟨hmem, decide_eq_true fun hpath => ?_⟩) hkey
      have hcnt := hzero record.borrowKind
      unfold held at hcnt
      rw [List.countP_eq_zero] at hcnt
      exact hcnt record hmem (decide_eq_true ⟨hkey, hpath, rfl⟩)

theorem tallies_cons :
    Tallies records key (entry :: paths) ↔
      (∀ kind, entry.count kind = held records key entry.path kind) ∧
      (∃ kind, 0 < entry.count kind) ∧ (∀ other ∈ paths, other.path ≠ entry.path) ∧
      Tallies (apart entry.path records) key paths := by
  constructor
  · intro h
    have hnd := List.nodup_cons.mp h.nodup
    have hpth : ∀ other ∈ paths, other.path ≠ entry.path := fun other hmem heq =>
      hnd.1 (List.mem_map.mpr ⟨other, hmem, heq⟩)
    refine ⟨h.exact entry List.mem_cons_self, h.used entry List.mem_cons_self, hpth, hnd.2,
      fun other hmem kind => ?_, fun other hmem => h.used other (List.mem_cons_of_mem _ hmem),
      fun record hmem hkey => ?_⟩
    · rw [h.exact other (List.mem_cons_of_mem _ hmem) kind, held_apart (hpth other hmem)]
    · obtain ⟨hmem, hpath⟩ := List.mem_filter.mp hmem
      obtain ⟨other, hother, heq⟩ := h.complete record hmem hkey
      rcases List.mem_cons.mp hother with rfl | hother
      · exact absurd heq.symm (of_decide_eq_true hpath)
      · exact ⟨other, hother, heq⟩
  · rintro ⟨hexact, hused, hpth, h⟩
    refine ⟨List.nodup_cons.mpr ⟨fun hmem => ?_, h.nodup⟩, fun other hmem kind => ?_,
      fun other hmem => ?_, fun record hmem hkey => ?_⟩
    · obtain ⟨other, hother, heq⟩ := List.mem_map.mp hmem
      exact hpth other hother heq
    · rcases List.mem_cons.mp hmem with rfl | hmem
      · exact hexact kind
      · rw [h.exact other hmem kind, held_apart (hpth other hmem)]
    · rcases List.mem_cons.mp hmem with rfl | hmem
      · exact hused
      · exact h.used other hmem
    · by_cases hpath : record.path = entry.path
      · exact ⟨entry, List.mem_cons_self, hpath.symm⟩
      · obtain ⟨other, hother, heq⟩ :=
          h.complete record (List.mem_filter.mpr ⟨hmem, decide_eq_true hpath⟩) hkey
        exact ⟨other, List.mem_cons_of_mem _ hother, heq⟩

/-! ## One record more, one record less -/

omit [DecidableEq F] in
theorem add_some {entry counted : PathBorrowState F}
    (h : entry.add kind = some counted) : counted.path = entry.path ∧
      ∀ other, counted.count other = entry.count other + if kind = other then 1 else 0 := by
  unfold PathBorrowState.add at h
  cases kind with
  | shared =>
    dsimp only at h
    split at h
    · cases h
      exact ⟨rfl, fun other => by cases other <;> rfl⟩
    · cases h
  | unique =>
    cases h
    exact ⟨rfl, fun other => by cases other <;> rfl⟩

omit [DecidableEq F] in
theorem path_sub (entry : PathBorrowState F) (kind : HostBorrowKind) :
    (entry.sub kind).path = entry.path := by
  cases kind <;> rfl

omit [DecidableEq F] in
theorem count_sub (entry : PathBorrowState F) (kind other : HostBorrowKind) :
    (entry.sub kind).count other = entry.count other - if kind = other then 1 else 0 := by
  cases kind <;> cases other <;> rfl

variable {prepared : List (PathBorrowState F)}

theorem preparePath_some
    (h : preparePath reserved paths path = some (prepared, slot, entry)) :
    entry.path = path ∧ ∃ before after, prepared = before ++ entry :: after ∧ before.length = slot ∧
      (prepared = paths ∨
        after = [] ∧ before = paths ∧ entry = ⟨path, 0, 0⟩ ∧ ∀ other ∈ paths, other.path ≠ path) := by
  unfold preparePath at h
  split at h
  · rename_i slot' entry' hslot
    obtain ⟨rfl, rfl, rfl⟩ : paths = prepared ∧ slot' = slot ∧ entry' = entry := by simpa using h
    obtain ⟨hpath, before, after, hspl, hlen⟩ := pathSlot_some hslot
    exact ⟨hpath, before, after, hspl, hlen, .inl rfl⟩
  · rename_i hslot
    split at h
    · obtain ⟨rfl, rfl, rfl⟩ : paths ++ [⟨path, 0, 0⟩] = prepared ∧ paths.length = slot ∧
          ⟨path, 0, 0⟩ = entry := by simpa using h
      exact ⟨rfl, paths, [], rfl, rfl, .inr ⟨rfl, rfl, rfl, pathSlot_none.mp hslot⟩⟩
    · cases h

/-- A borrow is counted. -/
theorem Tallies.add
    {entry counted : PathBorrowState F}
    (h : Tallies records key paths) (hkey : record.objectKey = key)
    (hprep : preparePath reserved paths record.path = some (prepared, slot, entry))
    (hadd : entry.add record.borrowKind = some counted) :
    Tallies (record :: records) key (prepared.set slot counted) := by
  obtain ⟨hpath, before, after, rfl, rfl, hcases⟩ := preparePath_some hprep
  obtain ⟨hcntd, hcnt⟩ := add_some hadd
  have hrec : record.path = counted.path := hpath.symm.trans hcntd.symm
  have hset : (before ++ entry :: after).set before.length counted = before ++ counted :: after := by
    simp
  rw [hset]
  -- either way the other entries count the other paths, and this one its own
  have hbef : (∀ kind, entry.count kind = held records key entry.path kind) ∧
      (∀ other ∈ before ++ after, other.path ≠ entry.path) ∧
      Tallies (apart entry.path records) key (before ++ after) := by
    rcases hcases with rfl | ⟨rfl, rfl, rfl, hnew⟩
    · obtain ⟨hexact, -, hoths, hrest⟩ := tallies_cons.mp (h.perm_paths List.perm_middle)
      exact ⟨hexact, hoths, hrest⟩
    · rw [List.append_nil]
      obtain ⟨hrest, hzero⟩ := (tallies_apart hnew).mp h
      refine ⟨fun kind => ?_, hnew, hrest⟩
      rw [hzero kind]
      cases kind <;> rfl
  obtain ⟨hexact, hoths, hrest⟩ := hbef
  refine (tallies_cons.mpr ⟨fun kind => ?_, ⟨record.borrowKind, ?_⟩, ?_, ?_⟩).perm_paths
    List.perm_middle.symm
  · rw [hcnt, hexact, held_cons, hcntd]
    simp [hkey, hpath]
  · rw [hcnt]
    simp
  · rwa [hcntd]
  · rw [apart_cons hrec, hcntd]
    exact hrest

/-- A record that is given back is counted no more. -/
theorem Tallies.sub
    (h : Tallies (record :: records) key paths) (hkey : record.objectKey = key)
    (hslot : pathSlot paths record.path = some (slot, entry)) :
    Tallies records key (recount paths slot (entry.sub record.borrowKind)) ∧
      entry.count record.borrowKind ≠ 0 := by
  obtain ⟨hpath, before, after, rfl, rfl⟩ := pathSlot_some hslot
  obtain ⟨hexact, -, hoths, hrest⟩ := tallies_cons.mp (h.perm_paths List.perm_middle)
  rw [apart_cons hpath.symm] at hrest
  have hheld : ∀ kind, entry.count kind =
      held records key entry.path kind + if record.borrowKind = kind then 1 else 0 := by
    intro kind
    rw [hexact kind, held_cons]
    simp [hkey, hpath]
  have hcnt : ∀ kind, (entry.sub record.borrowKind).count kind = held records key entry.path kind := by
    intro kind
    rw [count_sub, hheld kind, Nat.add_sub_cancel]
  refine ⟨?_, ?_⟩
  · unfold recount
    split
    · rename_i hzero
      have hnone : ∀ kind, held records key entry.path kind = 0 := by
        intro kind
        rw [← hcnt kind]
        cases kind with
        | shared => exact hzero.1
        | unique => exact hzero.2
      exact ((tallies_apart hoths).mpr ⟨hrest, hnone⟩).perm_paths (swapRemove_perm before after entry).symm
    · rename_i hpositive
      have hset : (before ++ entry :: after).set before.length (entry.sub record.borrowKind) =
          before ++ entry.sub record.borrowKind :: after := by simp
      rw [hset]
      have hpath' := path_sub entry record.borrowKind
      refine (tallies_cons.mpr ⟨fun kind => ?_, ?_, ?_, ?_⟩).perm_paths List.perm_middle.symm
      · rw [hcnt, hpath']
      · by_contra hnone
        refine hpositive ⟨?_, ?_⟩
        · exact Nat.eq_zero_of_not_pos fun hpos => hnone ⟨.shared, hpos⟩
        · exact Nat.eq_zero_of_not_pos fun hpos => hnone ⟨.unique, hpos⟩
      · rwa [hpath']
      · rwa [hpath']
  · rw [hheld, if_pos rfl]
    exact Nat.succ_ne_zero _

/-! ## All objects -/

section Objects

variable {objects : AList fun _ : BorrowObjectKey O => List (PathBorrowState F)}

/-- Every object's entries count the records. -/
def AllTally (records : List (FrameBorrowRecord O Y F))
    (objects : AList fun _ : BorrowObjectKey O => List (PathBorrowState F)) : Prop :=
  ∀ key, Tallies records key ((objects.lookup key).getD [])

/-- No object is kept without an entry. -/
def NoneEmpty (objects : AList fun _ : BorrowObjectKey O => List (PathBorrowState F)) : Prop :=
  ∀ key paths, objects.lookup key = some paths → paths ≠ []

omit [DecidableEq F] in
theorem getD_keepPaths (key other : BorrowObjectKey O) (left : List (PathBorrowState F)) :
    ((keepPaths objects key left).lookup other).getD [] =
      if other = key then left else (objects.lookup other).getD [] := by
  unfold keepPaths
  by_cases hkey : other = key
  · subst hkey
    rw [if_pos rfl]
    split
    · rename_i hemp
      rw [AList.lookup_erase, List.isEmpty_iff.mp hemp]
      rfl
    · rw [AList.lookup_insert]
      rfl
  · rw [if_neg hkey]
    split
    · rw [AList.lookup_erase_ne hkey]
    · rw [AList.lookup_insert_ne hkey]

omit [DecidableEq F] in
theorem NoneEmpty.keepPaths (h : NoneEmpty objects) (key : BorrowObjectKey O)
    (left : List (PathBorrowState F)) : NoneEmpty (keepPaths objects key left) := by
  intro other paths hlook
  unfold Runtime.keepPaths at hlook
  by_cases hkey : other = key
  · subst hkey
    split at hlook
    · rw [AList.lookup_erase] at hlook
      cases hlook
    · rename_i hemp
      rw [AList.lookup_insert] at hlook
      cases hlook
      exact fun hnil => hemp (List.isEmpty_iff.mpr hnil)
  · refine h other paths ?_
    split at hlook
    · rwa [AList.lookup_erase_ne hkey] at hlook
    · rwa [AList.lookup_insert_ne hkey] at hlook

theorem giveBack_spec {record : FrameBorrowRecord O Y F} (h : AllTally (record :: records) objects) :
    AllTally records (giveBack objects record).1 ∧ (giveBack objects record).2 = [] ∧
      (NoneEmpty objects → NoneEmpty (giveBack objects record).1) := by
  obtain ⟨found, hfnd, hpath⟩ := (h record.objectKey).complete record List.mem_cons_self rfl
  unfold giveBack
  split
  · rename_i hnone
    rw [hnone] at hfnd
    cases hfnd
  · rename_i paths hsome
    rw [hsome] at hfnd
    split
    · rename_i hslot
      exact absurd hpath (pathSlot_none.mp hslot found hfnd)
    · rename_i slot entry hslot
      have htally : Tallies (record :: records) record.objectKey paths := by
        have hkey := h record.objectKey
        rwa [hsome] at hkey
      obtain ⟨hleft, hcnt⟩ := htally.sub rfl hslot
      refine ⟨fun key => ?_, if_neg hcnt, fun hfull => hfull.keepPaths _ _⟩
      rw [getD_keepPaths]
      split
      · rename_i hkey
        rwa [hkey]
      · rename_i hkey
        exact (tallies_cons_other (Ne.symm hkey)).mp (h key)

theorem giveBackAll_spec : ∀ {given : List (FrameBorrowRecord O Y F)}
    {objects : AList fun _ : BorrowObjectKey O => List (PathBorrowState F)},
    AllTally (given ++ records) objects →
    AllTally records (giveBackAll given objects).1 ∧ (giveBackAll given objects).2 = [] ∧
      (NoneEmpty objects → NoneEmpty (giveBackAll given objects).1) := by
  intro given
  induction given with
  | nil => exact fun h => ⟨h, rfl, id⟩
  | cons record given ih =>
    intro objects h
    obtain ⟨hfst, hreport, hfull⟩ := giveBack_spec h
    obtain ⟨hrest, hrep, hfulls⟩ := ih hfst
    refine ⟨hrest, ?_, fun hnone => hfulls (hfull hnone)⟩
    show (giveBack objects record).2 ++ _ = []
    rw [hreport, hrep]
    rfl

end Objects

/-! ## The records of all frames -/

section Frames

variable {frames : AList fun _ : Nat => ActiveBorrowFrame O Y F} {id : Nat}
  {frame : ActiveBorrowFrame O Y F}

def recordsOf (frames : AList fun _ : Nat => ActiveBorrowFrame O Y F) :
    List (FrameBorrowRecord O Y F) :=
  frames.entries.flatMap fun entry => entry.2.borrows

omit [DecidableEq O] [DecidableEq F] in
theorem recordsOf_insert :
    recordsOf (frames.insert id frame) = frame.borrows ++ recordsOf (frames.erase id) := by
  unfold recordsOf
  rw [AList.entries_insert, List.flatMap_cons]
  rfl

omit [DecidableEq O] [DecidableEq F] in
theorem recordsOf_erase (h : frames.lookup id = some frame) :
    (recordsOf frames).Perm (frame.borrows ++ recordsOf (frames.erase id)) := by
  have hmem : (⟨id, frame⟩ : Sigma fun _ : Nat => ActiveBorrowFrame O Y F) ∈ frames.entries :=
    AList.mem_lookup_iff.mp h
  obtain ⟨found, before, after, -, hents, herase⟩ :=
    List.exists_of_kerase (List.mem_keys_of_mem hmem)
  have hfnd : frames.lookup id = some found :=
    AList.mem_lookup_iff.mpr (by rw [hents]; simp)
  cases h.symm.trans hfnd
  unfold recordsOf
  show (frames.entries.flatMap _).Perm (_ ++ (frames.entries.kerase id).flatMap _)
  rw [herase, hents, List.flatMap_append, List.flatMap_cons, List.flatMap_append,
    ← List.append_assoc, ← List.append_assoc]
  exact List.Perm.append_right _ List.perm_append_comm

end Frames

/-- Two records do not alias, or both only read. -/
def Compatible (left right : FrameBorrowRecord O Y F) : Prop :=
  left.objectKey = right.objectKey → pathsOverlap left.path right.path = true →
    left.borrowKind = .shared ∧ right.borrowKind = .shared

omit [DecidableEq O] in
theorem Compatible.symm {left right : FrameBorrowRecord O Y F} (h : Compatible left right) :
    Compatible right left := by
  intro hkey hpth
  unfold pathsOverlap at hpth
  rw [Bool.or_comm] at hpth
  exact (h hkey.symm hpth).symm

theorem satisfies_trans {first second third : HostBorrowKind}
    (h : first.satisfies second = true) (h' : second.satisfies third = true) :
    first.satisfies third = true := by
  revert h h'
  cases first <;> cases second <;> cases third <;> decide

/-- The count that is kept for a path. -/
def countOf (paths : List (PathBorrowState F)) (path : List F) (kind : HostBorrowKind) : Nat :=
  (paths.find? fun entry => decide (entry.path = path)).elim 0 fun entry => entry.count kind

theorem Tallies.countOf_eq (h : Tallies records key paths) (path : List F) (kind : HostBorrowKind) :
    countOf paths path kind = held records key path kind := by
  unfold countOf
  cases hfind : paths.find? fun entry => decide (entry.path = path) with
  | none =>
    have hnone := List.find?_eq_none.mp hfind
    refine (held_eq_zero (fun record hmem hkey hpath => ?_) kind).symm
    obtain ⟨entry, hent, heq⟩ := h.complete record hmem hkey
    exact hnone entry hent (decide_eq_true (heq.trans hpath))
  | some entry =>
    have hpath : entry.path = path := by simpa using List.find?_some hfind
    rw [← hpath]
    exact h.exact entry (List.mem_of_find?_eq_some hfind) kind

variable {entered : HostBorrowState O Y F} {memory : Nat → Bool}

namespace HostBorrowState

variable {state : HostBorrowState O Y F}

/-- The active records. -/
def active (state : HostBorrowState O Y F) : List (FrameBorrowRecord O Y F) :=
  recordsOf state.activeFrames

structure Sound (state : HostBorrowState O Y F) : Prop where
  exclusive : state.active.Pairwise Compatible
  tally : AllTally state.active state.objectBorrows
  fresh : ∀ id ∈ state.activeFrames, id < state.nextFrameId

omit [DecidableEq F] in
@[simp] theorem paths_setPaths (key other : BorrowObjectKey O) (paths : List (PathBorrowState F)) :
    (state.setPaths key paths).paths other = if other = key then paths else state.paths other := by
  unfold HostBorrowState.paths setPaths
  by_cases hkey : other = key
  · subst hkey
    rw [if_pos rfl, AList.lookup_insert]
    rfl
  · rw [if_neg hkey, AList.lookup_insert_ne hkey]

omit [DecidableEq F] in
/-- Making the entry of an object changes nothing that is counted. -/
theorem paths_entered (key other : BorrowObjectKey O) :
    (state.setPaths key (state.paths key)).paths other = state.paths other := by
  rw [paths_setPaths]
  split
  · rename_i hkey
    rw [hkey]
  · rfl

/-- The empty entry that `borrow_record` leaves: the object is new, and the reservation for its first
path is refused. -/
def Leaks (state : HostBorrowState O Y F) (allowed : Bool) (memory : Nat → Bool)
    (record : FrameBorrowRecord O Y F) : Prop :=
  allowed = true ∧ memory 0 = true ∧ memory 1 = true ∧ memory 2 = false ∧
    record.objectKey ∉ state.objectBorrows

/-- What a refused borrow may change. -/
structure Refused (state left : HostBorrowState O Y F) : Prop where
  frames : left.activeFrames = state.activeFrames
  next : left.nextFrameId = state.nextFrameId
  paths : ∀ key, left.paths key = state.paths key

omit [DecidableEq F] in
theorem Refused.refl : Refused state state := ⟨rfl, rfl, fun _ => rfl⟩

variable {key : BorrowObjectKey O} {path : List F}

omit [DecidableEq F] in
theorem Refused.setPaths :
    Refused state (state.setPaths key (state.paths key)) :=
  ⟨rfl, rfl, paths_entered key⟩

omit [DecidableEq F] in
theorem noneEmpty_setPaths {paths : List (PathBorrowState F)}
    (h : NoneEmpty state.objectBorrows) (hpth : paths ≠ []) :
    NoneEmpty (state.setPaths key paths).objectBorrows := by
  intro other left hlook
  unfold HostBorrowState.setPaths at hlook
  by_cases hkey : other = key
  · subst hkey
    rw [AList.lookup_insert] at hlook
    cases hlook
    exact hpth
  · rw [AList.lookup_insert_ne hkey] at hlook
    exact h other left hlook

/-- The shared count of a new path is not exhausted. -/
theorem preparePath_exhausted
    {entry : PathBorrowState F}
    (h : preparePath reserved paths path = some (prepared, slot, entry)) (hadd : entry.add kind = none) :
    prepared = paths ∧ prepared ≠ [] := by
  obtain ⟨-, before, after, rfl, -, hcases⟩ := preparePath_some h
  refine ⟨?_, by simp⟩
  rcases hcases with heq | ⟨-, -, rfl, -⟩
  · exact heq
  · cases kind <;> cases hadd

theorem preparePath_none
    (h : preparePath reserved paths path = none) : reserved = false := by
  unfold preparePath at h
  split at h
  · cases h
  · split at h
    · cases h
    · rename_i hrsvd
      exact Bool.not_eq_true _ ▸ hrsvd

/-- The two ends of `borrow_record`. -/
theorem borrowRecord_cases (state : HostBorrowState O Y F) (allowed : Bool) (memory : Nat → Bool)
    (guard : HostCallGuard) (record : FrameBorrowRecord O Y F) :
    (∃ error left, state.borrowRecord allowed memory guard record = (.error error, left) ∧
      Refused state left ∧
      (NoneEmpty state.objectBorrows → ¬ state.Leaks allowed memory record →
        NoneEmpty left.objectBorrows)) ∨
    ∃ frame prepared slot entry counted,
      state.borrowRecord allowed memory guard record = (.ok (),
        { state.setPaths record.objectKey (prepared.set slot counted) with
          activeFrames := state.activeFrames.insert guard.frameId
            { frame with borrows := frame.borrows ++ [record] } }) ∧
      state.activeFrames.lookup guard.frameId = some frame ∧ frame.epoch = guard.epoch ∧
      (∀ entry ∈ state.paths record.objectKey, entry.conflicts record = false) ∧
      preparePath (memory 2) (state.paths record.objectKey) record.path =
        some (prepared, slot, entry) ∧
      entry.add record.borrowKind = some counted := by
  unfold borrowRecord
  by_cases hallowed : allowed = true
  swap
  · rw [if_pos (by simpa using hallowed)]
    exact .inl ⟨_, _, rfl, .refl, fun h _ => h⟩
  rw [if_neg (by simp [hallowed])]
  cases hfr : state.activeFrames.lookup guard.frameId with
  | none => exact .inl ⟨_, _, rfl, .refl, fun h _ => h⟩
  | some frame =>
    dsimp only
    by_cases hepo : frame.epoch = guard.epoch
    swap
    · rw [if_pos hepo]
      exact .inl ⟨_, _, rfl, .refl, fun h _ => h⟩
    rw [if_neg (not_not_intro hepo)]
    by_cases hmemory : (memory 0 && memory 1) = true
    swap
    · rw [if_pos (by rw [Bool.not_eq_true] at hmemory; rw [hmemory]; rfl)]
      exact .inl ⟨_, _, rfl, .refl, fun h _ => h⟩
    rw [if_neg (by simp [hmemory])]
    split
    · rename_i hconf
      refine .inl ⟨_, _, rfl, .setPaths, fun h _ => noneEmpty_setPaths h fun hnil => ?_⟩
      rw [hnil] at hconf
      cases hconf
    · rename_i hfree
      split
      · rename_i hprep
        refine .inl ⟨_, _, rfl, .setPaths, fun h hleak => noneEmpty_setPaths h ?_⟩
        obtain ⟨hfst, hsnd⟩ := (Bool.and_eq_true _ _).mp hmemory
        have hkn : record.objectKey ∈ state.objectBorrows := by
          by_contra hnew
          exact hleak ⟨hallowed, hfst, hsnd, preparePath_none hprep, hnew⟩
        obtain ⟨known, hlook⟩ := Option.isSome_iff_exists.mp (AList.lookup_isSome.mpr hkn)
        unfold HostBorrowState.paths
        rw [hlook]
        exact h _ known hlook
      · rename_i prepared slot entry hprep
        split
        · rename_i hadd
          obtain ⟨rfl, hne⟩ := preparePath_exhausted hprep hadd
          exact .inl ⟨_, _, rfl, .setPaths, fun h _ => noneEmpty_setPaths h hne⟩
        · rename_i counted hadd
          refine .inr ⟨frame, prepared, slot, entry, counted, rfl, rfl, hepo, ?_, hprep, hadd⟩
          simpa using hfree

/-- No entry that conflicts, and exact counts: no record that conflicts. -/
theorem Sound.compatible (h : state.Sound) {record : FrameBorrowRecord O Y F}
    (hfree : ∀ entry ∈ state.paths record.objectKey, entry.conflicts record = false)
    {other : FrameBorrowRecord O Y F} (hother : other ∈ state.active) : Compatible record other := by
  intro hkey hpth
  have htally : Tallies state.active record.objectKey (state.paths record.objectKey) :=
    h.tally record.objectKey
  obtain ⟨entry, hent, hpath⟩ := htally.complete other hother hkey.symm
  have hcnt : 0 < entry.count other.borrowKind := by
    rw [htally.exact entry hent]
    exact List.countP_pos_iff.mpr ⟨other, hother, decide_eq_true ⟨hkey.symm, hpath.symm, rfl⟩⟩
  have hover : pathsOverlap entry.path record.path = true := by
    rw [hpath]
    unfold pathsOverlap at hpth ⊢
    rwa [Bool.or_comm]
  have hent := hfree entry hent
  unfold PathBorrowState.conflicts at hent
  rw [hover, Bool.true_and, Bool.or_eq_false_iff] at hent
  obtain ⟨huniq, hshrd⟩ := hent
  have hkind : other.borrowKind = .shared := by
    cases hother : other.borrowKind with
    | shared => rfl
    | unique =>
      rw [hother] at hcnt
      exact absurd hcnt (of_decide_eq_false huniq)
  refine ⟨?_, hkind⟩
  rw [hkind] at hcnt
  cases hrec : record.borrowKind with
  | shared => rfl
  | unique => simp [hrec, show 0 < entry.sharedCount from hcnt] at hshrd

theorem Refused.sound {left : HostBorrowState O Y F} (hrefd : Refused state left) (h : state.Sound) :
    left.Sound := by
  have hactv : left.active = state.active := congrArg recordsOf hrefd.frames
  refine ⟨?_, fun key => ?_, ?_⟩
  · rw [hactv]
    exact h.exclusive
  · rw [hactv]
    have hpth : (left.objectBorrows.lookup key).getD [] = (state.objectBorrows.lookup key).getD [] :=
      hrefd.paths key
    rw [hpth]
    exact h.tally key
  · rw [hrefd.frames, hrefd.next]
    exact h.fresh

theorem borrowRecord_sound (h : state.Sound) (allowed : Bool) (memory : Nat → Bool)
    (guard : HostCallGuard) (record : FrameBorrowRecord O Y F) :
    (state.borrowRecord allowed memory guard record).2.Sound := by
  rcases borrowRecord_cases state allowed memory guard record with
    ⟨error, left, heq, hrefd, -⟩ | ⟨frame, prepared, slot, entry, counted, heq, hfr, -, hfree,
      hprep, hadd⟩
  · rw [heq]
    exact hrefd.sound h
  · rw [heq]
    have hactv : (record :: state.active).Perm (recordsOf (state.activeFrames.insert guard.frameId
        { frame with borrows := frame.borrows ++ [record] })) := by
      rw [recordsOf_insert]
      refine ((recordsOf_erase hfr).cons record).trans ?_
      rw [List.append_assoc]
      exact List.perm_middle.symm
    refine ⟨?_, fun key => ?_, fun id hid => ?_⟩
    · refine (hactv.pairwise_iff Compatible.symm).mp (List.pairwise_cons.mpr ⟨fun other hother => ?_, h.exclusive⟩)
      exact h.compatible hfree hother
    · refine .perm ?_ hactv
      show Tallies _ key ((state.setPaths record.objectKey (prepared.set slot counted)).paths key)
      rw [paths_setPaths]
      split
      · rename_i hkey
        subst hkey
        exact (h.tally record.objectKey).add rfl hprep hadd
      · rename_i hkey
        exact (tallies_cons_other (Ne.symm hkey)).mpr (h.tally key)
    · rcases AList.mem_insert _ |>.mp hid with rfl | hid
      · exact h.fresh _ (AList.lookup_isSome.mp (by rw [hfr]; rfl))
      · exact h.fresh id hid

variable {guard : HostCallGuard}

theorem leaveFrame_spec (h : state.Sound) {frame : ActiveBorrowFrame O Y F}
    (hfr : state.activeFrames.lookup guard.frameId = some frame) (hepo : frame.epoch = guard.epoch) :
    (state.leaveFrame guard).1.Sound ∧ (state.leaveFrame guard).2 = [] ∧
      (state.leaveFrame guard).1.activeFrames = state.activeFrames.erase guard.frameId ∧
      (state.leaveFrame guard).1.nextFrameId = state.nextFrameId ∧
      (NoneEmpty state.objectBorrows → NoneEmpty (state.leaveFrame guard).1.objectBorrows) := by
  have hactv := recordsOf_erase hfr
  have htally : AllTally (frame.borrows ++ recordsOf (state.activeFrames.erase guard.frameId))
      state.objectBorrows := fun key => (h.tally key).perm hactv
  obtain ⟨hrest, hrep, hfull⟩ := giveBackAll_spec htally
  unfold leaveFrame
  rw [hfr]
  dsimp only
  rw [if_neg (not_not_intro hepo), hrep]
  refine ⟨⟨?_, hrest, fun id hid => ?_⟩, rfl, rfl, rfl, hfull⟩
  · have hpairs := (hactv.pairwise_iff Compatible.symm).mp h.exclusive
    exact (List.pairwise_append.mp hpairs).2.1
  · exact h.fresh id (AList.mem_erase.mp hid).2

omit [DecidableEq O] [DecidableEq F] in
theorem enterFrameIn_ok
    (h : state.enterFrameIn allowed memory = .ok (entered, guard)) :
    guard = ⟨state.nextFrameId, state.nextEpoch⟩ ∧
      entered = ⟨state.nextFrameId + 1, state.nextEpoch + 1,
        state.activeFrames.insert state.nextFrameId ⟨state.nextEpoch, []⟩, state.objectBorrows⟩ := by
  unfold enterFrameIn at h
  split at h
  · cases h
  · split at h
    · cases h
    · split at h
      · cases h
      · split at h
        · cases h
        · obtain ⟨hentd, hgrd⟩ := Prod.mk.inj (Except.ok.inj h)
          exact ⟨hgrd.symm, hentd.symm⟩

theorem enterFrameIn_sound (h : state.Sound)
    (hen : state.enterFrameIn allowed memory = .ok (entered, guard)) : entered.Sound := by
  obtain ⟨-, rfl⟩ := enterFrameIn_ok hen
  have hnew : state.nextFrameId ∉ state.activeFrames := fun hmem =>
    Nat.lt_irrefl _ (h.fresh _ hmem)
  have hactv : recordsOf (state.activeFrames.insert state.nextFrameId ⟨state.nextEpoch, []⟩) =
      state.active := by
    unfold active recordsOf
    rw [AList.entries_insert_of_notMem hnew]
    rfl
  refine ⟨?_, fun key => ?_, fun id hid => ?_⟩
  · show (recordsOf _).Pairwise _
    rw [hactv]
    exact h.exclusive
  · show Tallies (recordsOf _) key _
    rw [hactv]
    exact h.tally key
  · rcases AList.mem_insert _ |>.mp hid with rfl | hid
    · exact Nat.lt_succ_self _
    · exact Nat.lt_succ_of_lt (h.fresh id hid)

omit [DecidableEq F] in
/-- What a token that validates has behind it. -/
theorem validate_ok [DecidableEq Y] {owner : Nat} {token : FrameHostBorrowToken O Y}
    {required : HostBorrowKind} (h : state.validate owner token required = .ok ()) :
    token.owner = owner ∧ ∃ frame, state.activeFrames.lookup token.frameId = some frame ∧
      frame.epoch = token.epoch ∧ ∃ record ∈ frame.borrows, record.objectId = token.objectId ∧
        record.typeId = some token.typeId ∧ record.path = [] ∧
        record.borrowKind.satisfies required = true := by
  unfold validate at h
  split at h
  · cases h
  · rename_i hown
    split at h
    · cases h
    · rename_i frame hfr
      split at h
      · cases h
      · rename_i hepo
        split at h
        · cases h
        · rename_i hkind
          split at h
          · cases h
          · rename_i hany
            obtain ⟨record, hmem, hmatch⟩ := List.any_eq_true.mp (by simpa using hany)
            unfold FrameBorrowRecord.matches at hmatch
            simp only [Bool.and_eq_true, decide_eq_true_eq] at hmatch
            obtain ⟨⟨⟨hobj, hsat⟩, htype⟩, hpath⟩ := hmatch
            refine ⟨not_not.mp hown, frame, hfr, not_not.mp hepo, record, hmem, hobj, htype,
              List.isEmpty_iff.mp hpath, ?_⟩
            rw [Bool.not_eq_true'] at hkind
            exact satisfies_trans hsat (by simpa using hkind)

end HostBorrowState

/-! ## Runs -/

variable {guard : HostCallGuard}

namespace HostBorrowTable

open HostBorrowState List

variable {table : HostBorrowTable O Y F}

/-- The guards that are held are those of the active frames, and nothing was reported. -/
structure Sound (table : HostBorrowTable O Y F) : Prop where
  state : table.state.Sound
  guards : (table.guards.map HostCallGuard.frameId).Perm table.state.activeFrames.keys
  epochs : ∀ guard ∈ table.guards, ∀ frame,
    table.state.activeFrames.lookup guard.frameId = some frame → frame.epoch = guard.epoch
  reports : table.reports = []

theorem Sound.frame (h : table.Sound) (hgrd : guard ∈ table.guards) :
    ∃ frame, table.state.activeFrames.lookup guard.frameId = some frame ∧
      frame.epoch = guard.epoch := by
  have hkey : guard.frameId ∈ table.state.activeFrames :=
    AList.mem_keys.mpr (h.guards.mem_iff.mp (mem_map_of_mem hgrd))
  obtain ⟨frame, hfr⟩ := Option.isSome_iff_exists.mp (AList.lookup_isSome.mpr hkey)
  exact ⟨frame, hfr, h.epochs guard hgrd frame hfr⟩

/-- The borrow that leaves an empty entry. -/
def Leaks (table : HostBorrowTable O Y F) (answers : BorrowAnswers) : BorrowCall O Y F → Prop
  | .borrow i record => i < table.guards.length ∧
      table.state.Leaks answers.allowed answers.memory record
  | .enter | .leave _ => False

/-- No step of the run leaves an empty entry. -/
def NoLeaks : List (BorrowAnswers × BorrowCall O Y F) → HostBorrowTable O Y F → Prop
  | [], _ => True
  | call :: calls, table => ¬ table.Leaks call.1 call.2 ∧ NoLeaks calls (table.step call.1 call.2)

section Later

/-- Frame identities only grow: a guard that was not held has a new one. -/
structure Later (later table : HostBorrowTable O Y F) : Prop where
  next : table.state.nextFrameId ≤ later.state.nextFrameId
  guards : ∀ guard ∈ later.guards, guard ∈ table.guards ∨ table.state.nextFrameId ≤ guard.frameId

omit [DecidableEq O] [DecidableEq F]

theorem Later.refl : table.Later table := ⟨Nat.le_refl _, fun _ => .inl⟩

theorem Later.trans {last later : HostBorrowTable O Y F} (h : last.Later later)
    (h' : later.Later table) : last.Later table := by
  refine ⟨Nat.le_trans h'.next h.next, fun guard hgrd => ?_⟩
  rcases h.guards guard hgrd with hheld | hnew
  · exact h'.guards guard hheld
  · exact .inr (Nat.le_trans h'.next hnew)

end Later

theorem enter_spec (h : table.Sound) {answers : BorrowAnswers}
    (hen : table.state.enterFrameIn answers.allowed answers.memory = .ok (entered, guard)) :
    Sound { table with state := entered, guards := table.guards ++ [guard] } ∧
      Later { table with state := entered, guards := table.guards ++ [guard] } table := by
  have hsound := enterFrameIn_sound h.state hen
  obtain ⟨rfl, rfl⟩ := enterFrameIn_ok hen
  have hnew : table.state.nextFrameId ∉ table.state.activeFrames := fun hmem =>
    Nat.lt_irrefl _ (h.state.fresh _ hmem)
  refine ⟨⟨hsound, ?_, fun other hother frame hfr => ?_, h.reports⟩, Nat.le_succ _,
    fun other hother => ?_⟩
  · rw [map_append, AList.keys_insert, erase_of_not_mem (mt AList.mem_keys.mpr hnew)]
    exact perm_append_comm.trans (h.guards.cons _)
  · rcases mem_append.mp hother with hother | hother
    · obtain ⟨held, hheld, -⟩ := h.frame hother
      have hne : other.frameId ≠ table.state.nextFrameId := fun heq =>
        hnew (heq ▸ AList.lookup_isSome.mp (by rw [hheld]; rfl))
      rw [AList.lookup_insert_ne hne] at hfr
      exact h.epochs other hother frame hfr
    · obtain rfl := mem_singleton.mp hother
      rw [AList.lookup_insert] at hfr
      cases hfr
      rfl
  · rcases mem_append.mp hother with hother | hother
    · exact .inl hother
    · rw [mem_singleton.mp hother]
      exact .inr (Nat.le_refl _)

theorem borrow_spec (h : table.Sound) (answers : BorrowAnswers) (guard : HostCallGuard)
    (record : FrameBorrowRecord O Y F) :
    let state := (table.state.borrowRecord answers.allowed answers.memory guard record).2
    Sound { table with state } ∧ state.nextFrameId = table.state.nextFrameId ∧
      (NoneEmpty table.state.objectBorrows →
        ¬ table.state.Leaks answers.allowed answers.memory record → NoneEmpty state.objectBorrows) := by
  intro state
  have hsound : state.Sound := borrowRecord_sound h.state _ _ guard record
  rcases borrowRecord_cases table.state answers.allowed answers.memory guard record with
    ⟨error, left, heq, hrefd, hnone⟩ | ⟨frame, prepared, slot, entry, counted, heq, hfr, -, -,
      hprep, -⟩
  · have hstate : state = left := congrArg Prod.snd heq
    rw [hstate] at hsound ⊢
    refine ⟨⟨hsound, ?_, ?_, h.reports⟩, hrefd.next, hnone⟩
    · rw [hrefd.frames]
      exact h.guards
    · rw [hrefd.frames]
      exact h.epochs
  · have hstate : state = _ := congrArg Prod.snd heq
    rw [hstate] at hsound ⊢
    refine ⟨⟨hsound, ?_, fun other hother found hfnd => ?_, h.reports⟩, rfl, fun hnone _ => ?_⟩
    · have hkey : guard.frameId ∈ table.state.activeFrames.keys :=
        AList.mem_keys.mp (AList.lookup_isSome.mp (by rw [hfr]; rfl))
      rw [AList.keys_insert]
      exact h.guards.trans (perm_cons_erase hkey)
    · by_cases hid : other.frameId = guard.frameId
      · rw [hid, AList.lookup_insert] at hfnd
        cases hfnd
        exact h.epochs other hother frame (hid ▸ hfr)
      · rw [AList.lookup_insert_ne hid] at hfnd
        exact h.epochs other hother found hfnd
    · refine noneEmpty_setPaths hnone ?_
      obtain ⟨-, before, after, rfl, -, -⟩ := preparePath_some hprep
      exact fun hnil => by simp [set_eq_nil_iff] at hnil

theorem leave_spec (h : table.Sound) {i : Nat}
    (hgrd : table.guards[i]? = some guard) :
    let left := table.state.leaveFrame guard
    Sound ⟨left.1, table.guards.eraseIdx i, table.reports ++ left.2⟩ ∧
      left.1.nextFrameId = table.state.nextFrameId ∧
      (NoneEmpty table.state.objectBorrows → NoneEmpty left.1.objectBorrows) := by
  obtain ⟨hi, hget⟩ := List.getElem?_eq_some_iff.mp hgrd
  have hmem : guard ∈ table.guards := hget ▸ List.getElem_mem hi
  obtain ⟨frame, hfr, hepo⟩ := h.frame hmem
  obtain ⟨hsound, hrep, hfrs, hnext, hnone⟩ := leaveFrame_spec h.state hfr hepo
  refine ⟨⟨hsound, ?_, fun other hother found hfnd => ?_, ?_⟩, hnext, hnone⟩
  · rw [hfrs, AList.keys_erase]
    have hperm : (guard :: table.guards.eraseIdx i).Perm table.guards := by
      rw [← hget]
      exact List.getElem_cons_eraseIdx_perm hi
    have herase := ((hperm.map HostCallGuard.frameId).trans h.guards).erase guard.frameId
    rwa [List.map_cons, List.erase_cons_head] at herase
  · rw [hfrs] at hfnd
    refine h.epochs other (List.mem_of_mem_eraseIdx hother) found ?_
    by_cases hid : other.frameId = guard.frameId
    · rw [hid, AList.lookup_erase] at hfnd
      cases hfnd
    · rwa [AList.lookup_erase_ne hid] at hfnd
  · rw [h.reports, hrep]
    rfl

theorem step_spec (h : table.Sound) (answers : BorrowAnswers) (call : BorrowCall O Y F) :
    (table.step answers call).Sound ∧
      (table.step answers call).Later table ∧
      (¬ table.Leaks answers call → NoneEmpty table.state.objectBorrows →
        NoneEmpty (table.step answers call).state.objectBorrows) := by
  unfold step
  cases call with
  | enter =>
    dsimp only
    split
    · rename_i entered guard hen
      obtain ⟨hsound, hleft⟩ := enter_spec h hen
      obtain ⟨-, rfl⟩ := enterFrameIn_ok hen
      exact ⟨hsound, hleft, fun _ hnone => hnone⟩
    · exact ⟨h, .refl, fun _ hnone => hnone⟩
  | borrow i record =>
    dsimp only
    split
    · rename_i guard hgrd
      obtain ⟨hsound, hnext, hnone⟩ := borrow_spec h answers guard record
      refine ⟨hsound, ⟨Nat.le_of_eq hnext.symm, fun _ => .inl⟩, fun hleak hemp => hnone hemp fun hleaks => ?_⟩
      exact hleak ⟨(List.getElem?_eq_some_iff.mp hgrd).1, hleaks⟩
    · exact ⟨h, .refl, fun _ hnone => hnone⟩
  | leave i =>
    dsimp only
    split
    · rename_i guard hgrd
      obtain ⟨hsound, hnext, hnone⟩ := leave_spec h hgrd
      exact ⟨hsound, ⟨Nat.le_of_eq hnext.symm, fun other hmem => .inl (List.mem_of_mem_eraseIdx hmem)⟩,
        fun _ hemp => hnone hemp⟩
    · exact ⟨h, .refl, fun _ hnone => hnone⟩

theorem run_spec (calls : List (BorrowAnswers × BorrowCall O Y F)) :
    ∀ table : HostBorrowTable O Y F, table.Sound →
      (table.run calls).Sound ∧ (table.run calls).Later table ∧
      (NoLeaks calls table → NoneEmpty table.state.objectBorrows →
        NoneEmpty (table.run calls).state.objectBorrows) := by
  induction calls with
  | nil => exact fun table h => ⟨h, .refl, fun _ hnone => hnone⟩
  | cons call calls ih =>
    intro table h
    obtain ⟨hsound, hleft, hnone⟩ := step_spec h call.1 call.2
    obtain ⟨hlast, hlat, hnones⟩ := ih _ hsound
    exact ⟨hlast, hlat.trans hleft,
      fun hleaks hemp => hnones hleaks.2 (hnone hleaks.1 hemp)⟩

theorem start_sound : (start : HostBorrowTable O Y F).Sound := by
  refine ⟨⟨.nil, fun key => ?_, fun id hid => absurd hid (AList.notMem_empty id)⟩, .refl _,
    fun guard hgrd => (nomatch hgrd), rfl⟩
  exact ⟨nodup_nil, fun _ hmem => (nomatch hmem), fun _ hmem => (nomatch hmem),
    fun _ hmem => (nomatch hmem)⟩

omit [DecidableEq F] in
theorem start_noneEmpty : NoneEmpty (start : HostBorrowTable O Y F).state.objectBorrows :=
  fun _ _ hlook => nomatch hlook

/-- With no frame active and no empty entry kept, nothing is kept. -/
theorem Sound.released (h : table.Sound) (hnone : NoneEmpty table.state.objectBorrows)
    (hguards : table.guards = []) : table.state.objectBorrows = ∅ := by
  have hkeys : table.state.activeFrames.keys = [] := by
    have hperm := h.guards
    rw [hguards] at hperm
    exact nil_perm.mp hperm
  have hactv : table.state.active = [] := by
    unfold active recordsOf
    rw [map_eq_nil_iff.mp hkeys]
    rfl
  refine AList.ext (eq_nil_iff_forall_not_mem.mpr fun ⟨key, paths⟩ hmem => ?_)
  have hlook : table.state.objectBorrows.lookup key = some paths := AList.mem_lookup_iff.mpr hmem
  have htally := h.state.tally key
  rw [hlook, hactv] at htally
  obtain ⟨entry, hent⟩ := exists_mem_of_ne_nil _ (hnone key paths hlook)
  obtain ⟨kind, hpositive⟩ := htally.used entry hent
  rw [htally.exact entry hent kind] at hpositive
  exact Nat.lt_irrefl 0 hpositive

section Lasting

variable {guard : HostCallGuard} {record : FrameBorrowRecord O Y F}

/-- The record stands in the frame of the guard. -/
def Records (table : HostBorrowTable O Y F) (guard : HostCallGuard) (record : FrameBorrowRecord O Y F) : Prop :=
  ∃ frame, table.state.activeFrames.lookup guard.frameId = some frame ∧ record ∈ frame.borrows

theorem Sound.old (h : table.Sound) (hheld : guard ∈ table.guards) : guard.frameId < table.state.nextFrameId := by
  obtain ⟨frame, hfr, -⟩ := h.frame hheld
  exact h.state.fresh _ (AList.lookup_isSome.mp (by rw [hfr]; rfl))

theorem Records.step (h : table.Records guard record) (hsound : table.Sound) (hheld : guard ∈ table.guards)
    (answers : BorrowAnswers) (call : BorrowCall O Y F) (hstill : guard ∈ (table.step answers call).guards) :
    (table.step answers call).Records guard record := by
  obtain ⟨frame, hfr, hmem⟩ := h
  obtain ⟨after, haft, -⟩ := (step_spec hsound answers call).1.frame hstill
  refine ⟨after, haft, ?_⟩
  have hsame : some frame = some after → record ∈ after.borrows := fun heq => Option.some.inj heq ▸ hmem
  unfold HostBorrowTable.step at haft
  cases call with
  | enter =>
    dsimp only at haft
    split at haft
    · rename_i hen
      obtain ⟨-, rfl⟩ := enterFrameIn_ok hen
      rw [AList.lookup_insert_ne (ne_of_lt (hsound.old hheld)), hfr] at haft
      exact hsame haft
    · exact hsame (hfr.symm.trans haft)
  | borrow i other =>
    dsimp only at haft
    split at haft
    · rename_i asking _
      rcases borrowRecord_cases table.state answers.allowed answers.memory asking other with
        ⟨_, _, heq, hrefd, -⟩ | ⟨found, _, _, _, _, heq, hfnd, -⟩
      · rw [heq, hrefd.frames, hfr] at haft
        exact hsame haft
      · rw [heq] at haft
        by_cases hid : guard.frameId = asking.frameId
        · rw [hid, AList.lookup_insert] at haft
          cases hfr.symm.trans (hid ▸ hfnd)
          exact Option.some.inj haft ▸ mem_append_left _ hmem
        · rw [AList.lookup_insert_ne hid, hfr] at haft
          exact hsame haft
    · exact hsame (hfr.symm.trans haft)
  | leave i =>
    dsimp only at haft
    split at haft
    · rename_i leaving hleaving
      obtain ⟨left, hleft, hepo⟩ := hsound.frame (mem_of_getElem? hleaving)
      rw [(leaveFrame_spec hsound.state hleft hepo).2.2.1] at haft
      by_cases hid : guard.frameId = leaving.frameId
      · rw [hid, AList.lookup_erase] at haft
        cases haft
      · rw [AList.lookup_erase_ne hid, hfr] at haft
        exact hsame haft
    · exact hsame (hfr.symm.trans haft)

theorem Records.run (calls : List (BorrowAnswers × BorrowCall O Y F)) : ∀ {table : HostBorrowTable O Y F},
    table.Records guard record → table.Sound → guard ∈ table.guards → guard ∈ (table.run calls).guards →
      (table.run calls).Records guard record := by
  induction calls with
  | nil => exact fun h _ _ _ => h
  | cons call calls ih =>
    intro table h hsound hheld hlast
    obtain ⟨hnext, hlat, -⟩ := step_spec hsound call.1 call.2
    -- a guard that has left does not come back
    have hstill : guard ∈ (table.step call.1 call.2).guards :=
      ((run_spec calls _ hnext).2.1.guards guard hlast).resolve_right
        (Nat.not_le.mpr (Nat.lt_of_lt_of_le (hsound.old hheld) hlat.next))
    exact ih (h.step hsound hheld call.1 call.2 hstill) hnext hstill hlast

/-- A token stays valid, for all that its kind allows, until its frame leaves. -/
theorem run_validates [DecidableEq Y] (calls later : List (BorrowAnswers × BorrowCall O Y F)) (i owner : Nat)
    (answers : BorrowAnswers) (guard : HostCallGuard) (object : O) (kind : HostBorrowKind) (type : Y)
    (token : FrameHostBorrowToken O Y) (left : HostBorrowState O Y F)
    (hguard : (start.run calls).guards[i]? = some guard)
    (hborrow : (start.run calls).state.borrow owner answers.allowed answers.memory guard object kind type =
      (.ok token, left)) :
    let last := ((start.run calls).step answers (.borrow i ⟨object, kind, some type, []⟩)).run later
    guard ∈ last.guards → ∀ required, kind.satisfies required = true →
      last.state.validate owner token required = .ok () := by
  intro last hlast required hsat
  have hsound := (run_spec calls start start_sound).1
  unfold borrow at hborrow
  split at hborrow
  swap
  · cases hborrow
  rename_i borrowed hrec
  obtain rfl := Except.ok.inj (Prod.mk.inj hborrow).1
  have hstep : (start.run calls).step answers (.borrow i ⟨object, kind, some type, []⟩) =
      { start.run calls with state := borrowed } := by
    simp only [HostBorrowTable.step, hguard, hrec]
  have hfst : Records ((start.run calls).step answers (.borrow i ⟨object, kind, some type, []⟩)) guard
      ⟨object, kind, some type, []⟩ := by
    rw [hstep]
    rcases borrowRecord_cases (start.run calls).state answers.allowed answers.memory guard
      ⟨object, kind, some type, []⟩ with ⟨_, _, heq, -⟩ | ⟨frame, _, _, _, _, heq, -⟩
    · cases hrec.symm.trans heq
    · obtain ⟨-, rfl⟩ := Prod.mk.inj (hrec.symm.trans heq)
      exact ⟨_, AList.lookup_insert _, List.mem_append_right _ List.mem_cons_self⟩
  have hnext := (step_spec hsound answers (.borrow i ⟨object, kind, some type, []⟩)).1
  obtain ⟨frame, hfr, hmem⟩ :=
    hfst.run later hnext (by rw [hstep]; exact List.mem_of_getElem? hguard) hlast
  obtain ⟨_, hfr', hepo⟩ := (run_spec later _ hnext).1.frame hlast
  cases hfr.symm.trans hfr'
  unfold validate
  rw [if_neg (not_not_intro rfl), hfr]
  dsimp only
  rw [if_neg (not_not_intro hepo), if_neg (by simp [hsat]), if_neg]
  rw [Bool.not_eq_true', Bool.not_eq_false, List.any_eq_true]
  refine ⟨_, hmem, ?_⟩
  unfold FrameBorrowRecord.matches
  cases kind <;> simp [HostBorrowKind.satisfies]

/-- The token of a frame, after another has come and gone. -/
theorem run_validates_outer :
    let granted : BorrowAnswers := ⟨true, fun _ => true⟩
    HostBorrowState.validate ((start : HostBorrowTable Nat Nat Nat).run [(granted, .enter),
      (granted, .borrow 0 ⟨1, .unique, some 0, []⟩), (granted, .enter), (granted, .leave 1)]).state
        7 ⟨7, 0, 1, .unique, 0, 0⟩ .shared = .ok () :=
  run_validates [(⟨true, fun _ => true⟩, .enter)] [(⟨true, fun _ => true⟩, .enter), (⟨true, fun _ => true⟩, .leave 1)]
    0 7 ⟨true, fun _ => true⟩ ⟨0, 0⟩ 1 .unique 0 _ _ rfl rfl (List.mem_singleton.mpr rfl) .shared rfl

end Lasting

/-- Over any calls, with any answers: no two active records of one object overlap with one of them
unique; the counts are those of the records; a refused borrow changes no count; a token that validates
has a record behind it in the frame that gave it out, and a frame that has left does not come back.
When no step leaves an empty entry, nothing is kept once all frames have left. -/
theorem run_borrows [DecidableEq Y] (calls : List (BorrowAnswers × BorrowCall O Y F)) :
    let table := start.run calls
    table.state.active.Pairwise Compatible ∧
    (∀ key path kind,
      countOf (table.state.paths key) path kind = held table.state.active key path kind) ∧
    (∀ key, ((table.state.paths key).map PathBorrowState.path).Nodup) ∧
    (∀ allowed memory guard record error left,
      table.state.borrowRecord allowed memory guard record = (.error error, left) →
        left.activeFrames = table.state.activeFrames ∧ ∀ key, left.paths key = table.state.paths key) ∧
    (∀ owner token required, table.state.validate owner token required = .ok () →
      token.owner = owner ∧ ∃ frame, table.state.activeFrames.lookup token.frameId = some frame ∧
        frame.epoch = token.epoch ∧ ∃ record ∈ frame.borrows, record.objectId = token.objectId ∧
          record.typeId = some token.typeId ∧ record.path = [] ∧
          record.borrowKind.satisfies required = true) ∧
    (∀ guard ∈ table.guards, ∀ later,
      (∀ owner token required, token.frameId = guard.frameId → token.epoch = guard.epoch →
        (table.run later).state.validate owner token required = .ok () →
          guard ∈ (table.run later).guards) ∧
      (guard ∉ (table.run later).guards → ∀ last, guard ∉ ((table.run later).run last).guards)) ∧
    (NoLeaks calls start → table.guards = [] → table.state.objectBorrows = ∅) := by
  intro table
  obtain ⟨h, -, hnone⟩ := run_spec calls start start_sound
  refine ⟨h.state.exclusive, fun key path kind => (h.state.tally key).countOf_eq path kind,
    fun key => (h.state.tally key).nodup, fun allowed memory guard record error left heq => ?_,
    fun owner token required hvld => validate_ok hvld, fun guard hgrd later => ⟨?_, ?_⟩,
    fun hleaks hguards => h.released (hnone hleaks start_noneEmpty) hguards⟩
  · rcases borrowRecord_cases table.state allowed memory guard record with
      ⟨_, _, heq', hrefd, -⟩ | ⟨_, _, _, _, _, heq', -⟩
    · obtain ⟨-, rfl⟩ := Prod.mk.inj (heq.symm.trans heq')
      exact ⟨hrefd.frames, hrefd.paths⟩
    · cases heq.symm.trans heq'
  · intro owner token required hfr hepo hvld
    have hlat : (table.run later).Sound := (run_spec later table h).1
    obtain ⟨-, frame, hlook, hfrs, -⟩ := validate_ok hvld
    have hkey : token.frameId ∈ (table.run later).state.activeFrames.keys :=
      AList.mem_keys.mp (AList.lookup_isSome.mp (by rw [hlook]; rfl))
    obtain ⟨other, hother, hid⟩ := List.mem_map.mp (hlat.guards.mem_iff.mpr hkey)
    have hsame : other.epoch = guard.epoch := by
      rw [← hlat.epochs other hother frame (hid ▸ hlook), hfrs, hepo]
    have heq : other = guard := by
      obtain ⟨otherId, otherEpoch⟩ := other
      obtain ⟨guardId, guardEpoch⟩ := guard
      exact congrArg₂ HostCallGuard.mk (hid.trans hfr) hsame
    exact heq ▸ hother
  · intro hgone last hback
    obtain ⟨hlat, hnext, -⟩ := run_spec later table h
    obtain ⟨frame, hlook, -⟩ := h.frame hgrd
    have hold : guard.frameId < table.state.nextFrameId :=
      h.state.fresh _ (AList.lookup_isSome.mp (by rw [hlook]; rfl))
    rcases (run_spec last _ hlat).2.1.guards guard hback with hheld | hnew
    · exact hgone hheld
    · exact Nat.lt_irrefl _ (Nat.lt_of_lt_of_le hold (Nat.le_trans hnext.next hnew))

/-- A frame borrows an object whose first path finds no memory, and leaves: its entry stays. -/
theorem borrowRecord_leavesEntry :
    let granted : BorrowAnswers := ⟨true, fun _ => true⟩
    let noPath : BorrowAnswers := ⟨true, fun i => i ≠ 2⟩
    let table := (start : HostBorrowTable Nat Nat Nat).run
      [(granted, .enter), (noPath, .borrow 0 ⟨1, .shared, some 0, []⟩), (granted, .leave 0)]
    table.guards = [] ∧ table.state.activeFrames = ∅ ∧ table.state.objectBorrows ≠ ∅ := by
  intro granted noPath table
  refine ⟨rfl, rfl, fun hemp => ?_⟩
  have hlook : table.state.objectBorrows.lookup (.installed 1) = some [] := rfl
  rw [hemp] at hlook
  cases hlook

end HostBorrowTable

end Kagari.Runtime
