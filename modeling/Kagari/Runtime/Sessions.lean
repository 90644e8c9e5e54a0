import Kagari.Runtime.Slots
import Kagari.Runtime.Numeric

/-!
# Sessions and their frames

`SessionStore` keeps the records of the sessions, and beside them one stack of frames for each slot. Both tables
are behind run-time borrows: `recordViews`, `frameViews` and `frameEdit` are the guards that are out. Whether memory
can be reserved is a parameter of `insert`; `D` is what a session's state has beside its identity.
-/

namespace Kagari.Runtime.Session

open Lib Function List Option

structure SessionId where
  owner : BitVec 64
  slot : Nat
  generation : BitVec 64
deriving DecidableEq

def SessionId.ident (id : SessionId) : Ident 64 := ⟨id.slot, id.generation⟩

structure SessionState (D : Type) where
  id : SessionId
  data : D

structure SessionSlot (D : Type) where
  generation : BitVec 64
  state : Option (SessionState D)

structure Records (D : Type) where
  slots : List (SessionSlot D)
  /-- The next slot to use stands first. -/
  free : List Nat

structure SessionStore (D F : Type) where
  owner : BitVec 64
  records : Records D
  frames : List (List F)
  /-- How many guards of records are out. -/
  recordViews : Nat
  /-- The sessions whose frames are shown to someone. -/
  frameViews : List SessionId
  /-- The session whose frames someone may change. -/
  frameEdit : Option SessionId

variable {D F : Type}

/-- A free slot, or a new one. -/
def Records.next (records : Records D) : Nat × Records D :=
  match records.free with
  | [] => (records.slots.length, { records with slots := records.slots ++ [SessionSlot.mk 0 none] })
  | index :: free => (index, { records with free })

namespace SessionStore

def new (owner : BitVec 64) : SessionStore D F := ⟨owner, ⟨[], []⟩, [], 0, [], none⟩

/-- `try_borrow_mut` of the frames. -/
def framesFree (s : SessionStore D F) : Bool := s.frameViews.isEmpty && s.frameEdit.isNone

/-- `resize_with` and empty stacks. -/
def resize (frames : List (List F)) (length : Nat) : List (List F) :=
  frames.take length ++ List.replicate (length - frames.length) []

def insert (s : SessionStore D F) (data : D) (framesRoom slotsRoom : Bool) :
    Except RuntimeError SessionId × SessionStore D F :=
  if s.recordViews ≠ 0 then (.error (moduleValidation "session records borrowed across session entry"), s)
  else if !s.framesFree then (.error (moduleValidation "frame stack borrowed across session entry"), s)
  else if !framesRoom then (.error (resourceLimit "session frames"), s)
  else if s.records.free.isEmpty && !slotsRoom then (.error (resourceLimit "session slots"), s)
  else
    let (index, records) := s.records.next
    let id : SessionId := ⟨s.owner, index, ((records.slots[index]?).map (·.generation)).getD 0⟩
    let slots := records.slots.modify index ({ · with state := some ⟨id, data⟩ })
    (.ok id, { s with records := { records with slots }, frames := resize s.frames slots.length })

def get (s : SessionStore D F) (id : SessionId) : Option (SessionState D) :=
  if id.owner ≠ s.owner then none
  else (s.records.slots[id.slot]?).bind fun slot => if slot.generation = id.generation then slot.state else none

def framesOf (s : SessionStore D F) (id : SessionId) : Option (List F) :=
  (s.get id).bind fun _ => if s.frameEdit.isSome then none else s.frames[id.slot]?

def framesMut (s : SessionStore D F) (id : SessionId) : Option (List F) :=
  (s.get id).bind fun _ => if s.framesFree then s.frames[id.slot]? else none

def checkedNext (g : BitVec 64) : Option (BitVec 64) := if g = BitVec.allOnes 64 then none else some (g + 1)

/-- A shared view of another session's frames does not stop a removal; only an empty stack can stay where it is. -/
def remove (s : SessionStore D F) (id : SessionId) : Option (SessionState D × List F) × SessionStore D F :=
  if id.owner ≠ s.owner then (none, s)
  else if s.recordViews ≠ 0 then (none, s)
  else if !s.framesFree && (s.frameEdit.isSome || !(s.frames[id.slot]?).any (·.isEmpty)) then (none, s)
  else match s.records.slots[id.slot]? with
    | none => (none, s)
    | some slot =>
      if slot.generation ≠ id.generation then (none, s)
      else match slot.state with
        | none => (none, s)
        | some state =>
          let taken := if s.framesFree then (s.frames[id.slot]?).getD [] else []
          let frames := if s.framesFree then s.frames.set id.slot [] else s.frames
          let records := match checkedNext slot.generation with
            | none => { s.records with slots := s.records.slots.set id.slot { slot with state := none } }
            | some generation => ⟨s.records.slots.set id.slot ⟨generation, none⟩, id.slot :: s.records.free⟩
          (some (state, taken), { s with records, frames })

/-- `retired_owners`, with the condition on a session. -/
def retiredOwners (s : SessionStore D F) (retired : D → Bool) : List SessionId :=
  s.records.slots.filterMap fun slot => slot.state.bind fun state => if retired state.data then some state.id else none

/-- Every session changes at once, as in `detach_observers`. -/
def detachObservers (s : SessionStore D F) (detach : D → D) : SessionStore D F :=
  { s with records.slots := s.records.slots.map fun slot =>
      { slot with state := slot.state.map fun state => { state with data := detach state.data } } }

/-- A session changes through the cells of its state. -/
def touch (s : SessionStore D F) (id : SessionId) (f : D → D) : SessionStore D F :=
  match s.get id with
  | none => s
  | some state => { s with records.slots :=
      s.records.slots.modify id.slot ({ · with state := some { state with data := f state.data } }) }

/-- The frames change through the guard that is out. -/
def editFrames (s : SessionStore D F) (f : List F → List F) : SessionStore D F :=
  match s.frameEdit with
  | none => s
  | some id => { s with frames := s.frames.modify id.slot f }

end SessionStore

inductive SessionOp (D F : Type) where
  | insert (data : D) (framesRoom slotsRoom : Bool)
  | viewRecord (id : SessionId)
  | dropRecord
  | touch (id : SessionId) (f : D → D)
  | viewFrames (id : SessionId)
  | dropFrames (id : SessionId)
  | borrowFrames (id : SessionId)
  | editFrames (f : List F → List F)
  | returnFrames
  | remove (id : SessionId)
  | detachObservers (detach : D → D)

/-- The store, and the history of its identities: what each session's state and frames are. -/
structure RecordedSessions (D F : Type) where
  store : SessionStore D F
  history : History 64 (SessionState D × List F)

namespace RecordedSessions

def step (r : RecordedSessions D F) : SessionOp D F → RecordedSessions D F
  | .insert data framesRoom slotsRoom =>
    match r.store.insert data framesRoom slotsRoom with
    | (.error _, store) => { r with store }
    | (.ok id, store) => ⟨store, r.history.issue id.ident (⟨id, data⟩, [])⟩
  | .viewRecord id =>
    match r.store.get id with
    | none => r
    | some _ => { r with store.recordViews := r.store.recordViews + 1 }
  | .dropRecord => { r with store.recordViews := r.store.recordViews - 1 }
  | .touch id f => ⟨r.store.touch id f,
      match r.store.get id, r.history.last id.ident with
      | some state, some (_, frames) => r.history.write id.ident ({ state with data := f state.data }, frames)
      | _, _ => r.history⟩
  | .viewFrames id =>
    match r.store.framesOf id with
    | none => r
    | some _ => { r with store.frameViews := id :: r.store.frameViews }
  | .dropFrames id => { r with store.frameViews := r.store.frameViews.erase id }
  | .borrowFrames id =>
    match r.store.framesMut id with
    | none => r
    | some _ => { r with store.frameEdit := some id }
  | .editFrames f => ⟨r.store.editFrames f,
      match r.store.frameEdit with
      | none => r.history
      | some id =>
        match r.history.last id.ident with
        | none => r.history
        | some (state, frames) => r.history.write id.ident (state, f frames)⟩
  | .returnFrames => { r with store.frameEdit := none }
  | .remove id =>
    match r.store.remove id with
    | (none, store) => { r with store }
    | (some _, store) => ⟨store, r.history.retire id.ident⟩
  | .detachObservers detach => ⟨r.store.detachObservers detach,
      { r.history with last := fun id => (r.history.last id).map fun (state, frames) =>
          ({ state with data := detach state.data }, frames) }⟩

def run (owner : BitVec 64) (ops : List (SessionOp D F)) : RecordedSessions D F :=
  ops.foldl step ⟨.new owner, .empty⟩

end RecordedSessions

/-! ## The arena of the sessions -/

variable {frames : List (List F)}

namespace SessionStore

def contents (s : SessionStore D F) (i : Nat) : Option (SessionState D × List F) :=
  ((s.records.slots[i]?).bind (·.state)).map fun state => (state, (s.frames[i]?).getD [])

def arena (s : SessionStore D F) : Arena 64 (SessionState D × List F) :=
  ⟨s.records.slots.map (·.generation), s.contents, s.records.free⟩

variable {s s' : SessionStore D F} {id : SessionId} {i : Nat} {x : SessionSlot D} {state : SessionState D}

theorem get_iff : s.get id = some state ↔ id.owner = s.owner ∧
    s.records.slots[id.slot]? = some ⟨id.generation, some state⟩ := by
  unfold get
  by_cases hown : id.owner = s.owner
  · rw [if_neg (not_not.mpr hown), bind_eq_some_iff]
    constructor
    · rintro ⟨⟨generation, found⟩, hslot, hstate⟩
      split at hstate
      · rename_i hgen
        dsimp only at hgen hstate
        rw [hslot, hgen, hstate]
        exact ⟨hown, rfl⟩
      · cases hstate
    · rintro ⟨-, hslot⟩
      exact ⟨_, hslot, if_pos rfl⟩
  · rw [if_pos hown]
    exact iff_of_false nofun fun h => hown h.1

theorem get_read (s : SessionStore D F) (id : SessionId) :
    s.get id = if id.owner = s.owner then (s.arena.read id.ident).map Prod.fst else none := by
  unfold get Arena.read arena contents SessionId.ident
  by_cases hown : id.owner = s.owner
  · rw [if_neg (not_not.mpr hown), if_pos hown]
    simp only [getElem?_map]
    cases s.records.slots[id.slot]? with
    | none => rfl
    | some x => by_cases hgen : x.generation = id.generation <;> simp [hgen, comp_def]
  · rw [if_pos hown, if_neg hown]

/-- The arena after one slot and its frames change. -/
theorem arena_change (hslot : s.records.slots[i]? = some x) (x' : SessionSlot D) (free : List Nat)
    (hoths : ∀ j, j ≠ i → frames[j]? = s.frames[j]?) :
    arena { s with records := ⟨s.records.slots.set i x', free⟩, frames } = ⟨s.arena.generations.set i x'.generation,
      update s.arena.contents i (x'.state.map fun state => (state, (frames[i]?).getD [])), free⟩ := by
  unfold arena
  congr 1
  · exact List.map_set
  · funext j
    unfold contents
    by_cases hj : j = i
    · subst hj
      rw [update_self, List.getElem?_set_self (List.getElem?_eq_some_iff.mp hslot).1]
      rfl
    · rw [update_of_ne hj, List.getElem?_set_ne (Ne.symm hj)]
      dsimp only
      rw [hoths j hj]

theorem generations_set (hslot : s.records.slots[i]? = some x) :
    s.arena.generations.set i x.generation = s.arena.generations := map_set_entry hslot (·.generation)

theorem resize_same : resize frames frames.length = frames := by
  simp [resize]

theorem resize_next : resize frames (frames.length + 1) = frames ++ [[]] := by
  simp [resize]

theorem insert_error {data : D} {framesRoom slotsRoom : Bool} {e : RuntimeError}
    (h : s.insert data framesRoom slotsRoom = (.error e, s')) : s' = s := by
  unfold insert at h
  split at h
  · exact (Prod.mk.inj h).2.symm
  split at h
  · exact (Prod.mk.inj h).2.symm
  split at h
  · exact (Prod.mk.inj h).2.symm
  split at h
  · exact (Prod.mk.inj h).2.symm
  · cases congrArg Prod.fst h

/-- A removal changes nothing, or vacates the slot of a session and takes its frames. -/
theorem remove_cases (s : SessionStore D F) (id : SessionId) : s.remove id = (none, s) ∨
    ∃ state g free, s.get id = some state ∧ s.frameEdit = none ∧
      s.remove id = (some (state, (s.frames[id.slot]?).getD []),
        { s with records := ⟨s.records.slots.set id.slot ⟨g, none⟩, free⟩, frames := s.frames.set id.slot [] }) ∧
      s.arena.retire id.slot = ⟨s.arena.generations.set id.slot g, update s.arena.contents id.slot none, free⟩ := by
  unfold remove
  by_cases hown : id.owner = s.owner
  case neg => exact .inl (if_pos hown)
  rw [if_neg (not_not.mpr hown)]
  by_cases hviews : s.recordViews = 0
  case neg => exact .inl (if_pos hviews)
  rw [if_neg (not_not.mpr hviews)]
  split
  · exact .inl rfl
  rename_i hbord
  cases hslot : s.records.slots[id.slot]? with
  | none => exact .inl rfl
  | some slot =>
    obtain ⟨generation, state⟩ := slot
    dsimp only
    split
    · exact .inl rfl
    rename_i hgen
    obtain rfl := not_not.mp hgen
    cases state with
    | none => exact .inl rfl
    | some state =>
      right
      have hfrs : s.frameEdit = none ∧ (if s.framesFree then (s.frames[id.slot]?).getD [] else []) =
        (s.frames[id.slot]?).getD [] ∧
          (if s.framesFree then s.frames.set id.slot [] else s.frames) = s.frames.set id.slot [] := by
        by_cases hfree : s.framesFree = true
        · have hedit : s.frameEdit = none := by
            unfold framesFree at hfree
            simp_all
          simp [hfree, hedit]
        · simp only [hfree, Bool.not_false, Bool.true_and, Bool.or_eq_true, not_or, Bool.not_eq_true] at hbord
          obtain ⟨hedit, hemp⟩ := hbord
          have hbkt : s.frames[id.slot]? = some [] := by
            cases hbkt : s.frames[id.slot]? <;> simp_all
          refine ⟨by simpa using hedit, by simp [hbkt], ?_⟩
          rw [set_entry hbkt]
          simp
      have hcur : s.arena.generations[id.slot]? = some id.generation := by simp [arena, hslot]
      have hget : s.get id = some state := get_iff.mpr ⟨hown, hslot⟩
      rw [hfrs.2.1, hfrs.2.2]
      unfold checkedNext Arena.retire
      rw [hcur]
      dsimp only
      by_cases hlast : id.generation = BitVec.allOnes 64
      · rw [if_pos hlast]
        refine ⟨state, id.generation, s.records.free, hget, hfrs.1, rfl, ?_⟩
        rw [if_pos hlast, set_entry hcur]
        rfl
      · rw [if_neg hlast]
        refine ⟨state, id.generation + 1, id.slot :: s.records.free, hget, hfrs.1, rfl, ?_⟩
        rw [if_neg hlast]
        rfl

/-- Nothing is done through an identity that names no session. -/
theorem stale (h : s.get id = none) : s.framesOf id = none ∧ s.framesMut id = none ∧ (∀ f, s.touch id f = s) ∧
    s.remove id = (none, s) := by
  refine ⟨by rw [framesOf, h]; rfl, by rw [framesMut, h]; rfl, fun f => by rw [touch, h], ?_⟩
  rcases s.remove_cases id with hnone | ⟨state, _, _, hget, -⟩
  · exact hnone
  · rw [h] at hget
    cases hget

/-- A session is entered under the identity that the arena gives next, with an empty stack. -/
theorem insert_ok {data : D} {framesRoom slotsRoom : Bool} (h : s.insert data framesRoom slotsRoom = (.ok id, s'))
    (hlens : s.frames.length = s.records.slots.length)
    (hfree : ∀ i ∈ s.records.free, ∃ g, s.records.slots[i]? = some ⟨g, none⟩ ∧ s.frames[i]? = some []) :
    id.owner = s.owner ∧ s.frameViews = [] ∧ s.frameEdit = none ∧ id.ident = (s.arena.alloc (⟨id, data⟩, [])).2 ∧
      s'.arena = (s.arena.alloc (⟨id, data⟩, [])).1 ∧ s'.frames[id.slot]? = some [] ∧
      (s'.owner = s.owner ∧ s'.frameViews = s.frameViews ∧ s'.frameEdit = s.frameEdit ∧
        s'.frames.length = s'.records.slots.length) ∧
      s'.records.slots[id.slot]? = some ⟨id.generation, some ⟨id, data⟩⟩ ∧
      ∀ j, j ≠ id.slot → s'.records.slots[j]? = s.records.slots[j]? ∧ s'.frames[j]? = s.frames[j]? := by
  unfold insert at h
  split at h
  · cases congrArg Prod.fst h
  split at h
  · cases congrArg Prod.fst h
  rename_i hviews hbord
  have hopen : s.frameViews = [] ∧ s.frameEdit = none := by
    unfold framesFree at hbord
    simp_all
  split at h
  · cases congrArg Prod.fst h
  split at h
  · cases congrArg Prod.fst h
  unfold Records.next at h
  cases hnext : s.records.free with
  | nil =>
    rw [hnext] at h
    dsimp only at h
    have hslot : (s.records.slots ++ [SessionSlot.mk 0 none])[s.records.slots.length]? =
        some ⟨0, (none : Option (SessionState D))⟩ := by simp
    have hset (y : SessionSlot D) : (s.records.slots ++ [SessionSlot.mk 0 none]).set s.records.slots.length y =
        s.records.slots ++ [y] := by simp
    have hrsz (y : SessionSlot D) : resize s.frames (s.records.slots ++ [y]).length = s.frames ++ [[]] := by
      rw [List.length_append, List.length_singleton, ← hlens, resize_next]
    rw [hslot, modify_entry hslot, hset, hrsz] at h
    obtain ⟨hid, rfl⟩ := Prod.mk.inj h
    cases hid
    refine ⟨rfl, hopen.1, hopen.2, ?_, ?_, ?_, ⟨rfl, rfl, rfl, ?_⟩, ?_, fun j hj => ?_⟩
    · simp [Arena.alloc, arena, hnext, SessionId.ident]
    · simp only [Arena.alloc, arena, hnext, List.map_append, List.map_cons, List.map_nil, List.length_map]
      congr 1
      funext j
      unfold contents
      dsimp only
      rcases Nat.lt_trichotomy j s.records.slots.length with hlt | rfl | hgt
      · rw [List.getElem?_append_left hlt, List.getElem?_append_left (hlens ▸ hlt),
          update_of_ne (Nat.ne_of_lt hlt)]
      · rw [List.getElem?_concat_length, update_self, ← hlens, List.getElem?_concat_length]
        rfl
      · have hout (y : SessionSlot D) : (s.records.slots ++ [y])[j]? = none := List.getElem?_eq_none (by simp; omega)
        rw [hout, update_of_ne (Nat.ne_of_gt hgt), List.getElem?_eq_none (l := s.records.slots) (by omega)]
        rfl
    · simp [← hlens]
    · simp [hlens]
    · simp
    · dsimp only at hj ⊢
      rcases Nat.lt_or_gt_of_ne hj with hlt | hgt
      · exact ⟨List.getElem?_append_left hlt, List.getElem?_append_left (hlens ▸ hlt)⟩
      · constructor
        · rw [List.getElem?_eq_none (by simp; omega), List.getElem?_eq_none (by omega)]
        · rw [List.getElem?_eq_none (by simp; omega), List.getElem?_eq_none (by omega)]
  | cons index free =>
    rw [hnext] at h
    dsimp only at h
    obtain ⟨g, hslot, hemp⟩ := hfree index (by simp [hnext])
    rw [hslot, modify_entry hslot, List.length_set, ← hlens, resize_same] at h
    obtain ⟨hid, rfl⟩ := Prod.mk.inj h
    cases hid
    have hlt := (List.getElem?_eq_some_iff.mp hslot).1
    refine ⟨rfl, hopen.1, hopen.2, ?_, ?_, hemp, ⟨rfl, rfl, rfl, ?_⟩, ?_, fun j hj => ⟨?_, rfl⟩⟩
    · simp [Arena.alloc, arena, hnext, hslot, SessionId.ident]
    · rw [arena_change hslot _ free fun _ _ => rfl, generations_set hslot]
      simp [Arena.alloc, arena, hnext, hemp]
    · simpa using hlens
    · rw [List.getElem?_set_self hlt]
      rfl
    · exact List.getElem?_set_ne (Ne.symm hj)

end SessionStore

/-! ## Runs of the store -/

namespace RecordedSessions

open SessionStore

/-- The store is the arena of the history, a vacant slot has no frames, and whoever may change frames is a session. -/
structure Sound (owner : BitVec 64) (r : RecordedSessions D F) : Prop where
  tracks : Tracks r.store.arena r.history
  owned : r.store.owner = owner
  lengths : r.store.frames.length = r.store.records.slots.length
  empty : ∀ (i : Nat) g, r.store.records.slots[i]? = some ⟨g, none⟩ → r.store.frames[i]? = some []
  named : ∀ (i : Nat) g state, r.store.records.slots[i]? = some ⟨g, some state⟩ → state.id = ⟨owner, i, g⟩
  editing : ∀ id, r.store.frameEdit = some id → ∃ state, r.store.get id = some state

variable {owner : BitVec 64} {r : RecordedSessions D F} {id : SessionId} {state : SessionState D}

theorem sound_new : Sound owner (⟨.new owner, .empty⟩ : RecordedSessions D F) where
  tracks := .empty
  owned := rfl
  lengths := rfl
  empty := nofun
  named := nofun
  editing := nofun

theorem Sound.get (h : Sound owner r) (id : SessionId) :
    r.store.get id = if id.owner = owner then (r.history.last id.ident).map Prod.fst else none := by
  rw [get_read, h.owned, h.tracks.reads]

/-- A session, with its frames. -/
theorem Sound.live (h : Sound owner r) (hget : r.store.get id = some state) : ∃ frames,
    r.store.frames[id.slot]? = some frames ∧ r.history.last id.ident = some (state, frames) := by
  obtain ⟨-, hslot⟩ := get_iff.mp hget
  have hlt : id.slot < r.store.frames.length := by
    rw [h.lengths]
    exact (List.getElem?_eq_some_iff.mp hslot).1
  refine ⟨r.store.frames[id.slot], List.getElem?_eq_getElem hlt, ?_⟩
  rw [← h.tracks.reads, Arena.read_of_current (by simp [arena, hslot, SessionId.ident])]
  simp [arena, SessionStore.contents, SessionId.ident, hslot, hlt]

/-- One slot changes, with the frames beside it. -/
theorem Sound.change (h : Sound owner r) {i : Nat} {x x' : SessionSlot D} (hslot : r.store.records.slots[i]? = some x)
    {free : List Nat} {history : History 64 (SessionState D × List F)}
    (htrk : Tracks ⟨r.store.arena.generations.set i x'.generation, update r.store.arena.contents i
      (x'.state.map fun state => (state, (frames[i]?).getD [])), free⟩ history)
    (hlen : frames.length = r.store.frames.length) (hoths : ∀ j, j ≠ i → frames[j]? = r.store.frames[j]?)
    (hemp : x'.state = none → frames[i]? = some [])
    (hnamed : ∀ state, x'.state = some state → state.id = ⟨owner, i, x'.generation⟩)
    (hediting : r.store.frameEdit = none ∨ x'.generation = x.generation ∧ (x.state.isSome → x'.state.isSome)) :
    Sound owner ⟨{ r.store with records := ⟨r.store.records.slots.set i x', free⟩, frames }, history⟩ := by
  have hself : (r.store.records.slots.set i x')[i]? = some x' :=
    List.getElem?_set_self (List.getElem?_eq_some_iff.mp hslot).1
  have hrest (j : Nat) (hj : j ≠ i) : (r.store.records.slots.set i x')[j]? = r.store.records.slots[j]? :=
    List.getElem?_set_ne (Ne.symm hj)
  refine ⟨?_, h.owned, ?_, fun j g hj => ?_, fun j g state hj => ?_, fun id hid => ?_⟩
  · rw [arena_change hslot x' free hoths]
    exact htrk
  · rw [hlen, h.lengths]
    exact List.length_set.symm
  · dsimp only at hj ⊢
    by_cases hji : j = i
    · subst hji
      cases hself.symm.trans hj
      exact hemp rfl
    · rw [hoths j hji]
      exact h.empty j g (hrest j hji ▸ hj)
  · dsimp only at hj
    by_cases hji : j = i
    · subst hji
      cases hself.symm.trans hj
      exact hnamed state rfl
    · exact h.named j g state (hrest j hji ▸ hj)
  · rcases hediting with hnone | ⟨hgen, hstays⟩
    · exact absurd (hnone.symm.trans hid) nofun
    · obtain ⟨state, hget⟩ := h.editing id hid
      obtain ⟨hown, hfnd⟩ := get_iff.mp hget
      by_cases hji : id.slot = i
      · subst hji
        cases hslot.symm.trans hfnd
        obtain ⟨state', hstate'⟩ := isSome_iff_exists.mp (hstays rfl)
        obtain ⟨g, found⟩ := x'
        dsimp only at hgen hstate'
        refine ⟨state', get_iff.mpr ⟨hown, hself.trans ?_⟩⟩
        rw [hstate', hgen]
      · exact ⟨state, get_iff.mpr ⟨hown, (hrest id.slot hji).trans hfnd⟩⟩

theorem Sound.free (h : Sound owner r) {i : Nat} (hi : i ∈ r.store.records.free) :
    ∃ g, r.store.records.slots[i]? = some ⟨g, none⟩ ∧ r.store.frames[i]? = some [] := by
  obtain ⟨hlt, hvac, -⟩ := (h.tracks.free i).mp hi
  have hbnd : i < r.store.records.slots.length := by simpa [arena] using hlt
  obtain ⟨⟨g, state⟩, hslot⟩ : ∃ x, r.store.records.slots[i]? = some x := ⟨_, getElem?_eq_getElem hbnd⟩
  obtain rfl : state = none := by simpa [arena, SessionStore.contents, hslot] using hvac
  exact ⟨g, hslot, h.empty i g hslot⟩

/-- A session's record or frames change. -/
theorem Sound.write (h : Sound owner r) (hget : r.store.get id = some state) (data : D) (frames : List F) :
    Sound owner ⟨{ r.store with
        records.slots := r.store.records.slots.set id.slot ⟨id.generation, some { state with data }⟩
        frames := r.store.frames.set id.slot frames },
      r.history.write id.ident ({ state with data }, frames)⟩ := by
  obtain ⟨-, hslot⟩ := get_iff.mp hget
  obtain ⟨old, hold, hlast⟩ := h.live hget
  have hfrs : (r.store.frames.set id.slot frames)[id.slot]? = some frames :=
    List.getElem?_set_self (List.getElem?_eq_some_iff.mp hold).1
  have hlive : (r.history.last id.ident).isSome := by rw [hlast]; rfl
  refine h.change hslot ?_ List.length_set (fun j hj => List.getElem?_set_ne (Ne.symm hj)) nofun ?_ (.inr ⟨rfl,
    fun _ => rfl⟩)
  · rw [generations_set hslot, hfrs]
    exact h.tracks.write hlive _
  · rintro _ heq
    cases heq
    exact h.named id.slot id.generation state hslot

/-- A guard comes or goes. -/
theorem Sound.guard (h : Sound owner r) (recordViews : Nat) (frameViews : List SessionId) :
    Sound owner ⟨{ r.store with recordViews, frameViews }, r.history⟩ :=
  ⟨h.tracks, h.owned, h.lengths, h.empty, h.named, h.editing⟩

theorem Sound.step (h : Sound owner r) (op : SessionOp D F) :
    Sound owner (r.step op) ∧ r.history.Later (r.step op).history := by
  cases op with
  | insert data framesRoom slotsRoom =>
    unfold RecordedSessions.step
    dsimp only
    split
    · rename_i e store herr
      rw [insert_error herr]
      exact ⟨h, .refl _⟩
    · rename_i id store hok
      obtain ⟨hown, -, hedit, hident, harena, hemp, ⟨howned, -, hsame, hlen⟩, hself, hoths⟩ :=
        insert_ok hok h.lengths fun i => h.free
      have htrk : Tracks store.arena (r.history.issue id.ident (⟨id, data⟩, [])) := by
        rw [harena, hident]
        exact h.tracks.alloc _
      refine ⟨⟨htrk, howned.trans h.owned, hlen, fun j g hj => ?_, fun j g state hj => ?_, fun id' hid' => ?_⟩,
        .issue htrk⟩
      · dsimp only at hj ⊢
        by_cases hji : j = id.slot
        · subst hji
          exact hemp
        · rw [(hoths j hji).2]
          exact h.empty j g ((hoths j hji).1 ▸ hj)
      · dsimp only at hj
        by_cases hji : j = id.slot
        · subst hji
          obtain ⟨rfl, heq⟩ := SessionSlot.mk.inj (some.inj (hself.symm.trans hj))
          cases heq
          obtain ⟨idOwner, slot, generation⟩ := id
          exact congrArg (SessionId.mk · slot generation) (hown.trans h.owned)
        · exact h.named j g state ((hoths j hji).1 ▸ hj)
      · dsimp only at hid'
        rw [hsame, hedit] at hid'
        cases hid'
  | viewRecord id =>
    unfold RecordedSessions.step
    dsimp only
    split
    · exact ⟨h, .refl _⟩
    · exact ⟨h.guard _ _, .refl _⟩
  | dropRecord => exact ⟨h.guard _ _, .refl _⟩
  | touch id f =>
    unfold RecordedSessions.step SessionStore.touch
    dsimp only
    cases hget : r.store.get id with
    | none => exact ⟨h, .refl _⟩
    | some state =>
      obtain ⟨frames, hfrs, hlast⟩ := h.live hget
      have hwrt := h.write hget (f state.data) frames
      rw [set_entry hfrs] at hwrt
      rw [hlast]
      dsimp only
      rw [modify_entry (get_iff.mp hget).2]
      exact ⟨hwrt, .write (by rw [hlast]; rfl)⟩
  | viewFrames id =>
    unfold RecordedSessions.step
    dsimp only
    split
    · exact ⟨h, .refl _⟩
    · exact ⟨h.guard _ _, .refl _⟩
  | dropFrames id => exact ⟨h.guard _ _, .refl _⟩
  | borrowFrames id =>
    unfold RecordedSessions.step
    dsimp only
    split
    · exact ⟨h, .refl _⟩
    · rename_i frames hfrs
      obtain ⟨state, hget, -⟩ := bind_eq_some_iff.mp hfrs
      refine ⟨⟨h.tracks, h.owned, h.lengths, h.empty, h.named, fun id' hid' => ?_⟩, .refl _⟩
      cases hid'
      exact ⟨state, hget⟩
  | editFrames f =>
    cases hedit : r.store.frameEdit with
    | none =>
      simp only [RecordedSessions.step, SessionStore.editFrames, hedit]
      exact ⟨h, .refl _⟩
    | some id =>
      obtain ⟨state, hget⟩ := h.editing id hedit
      obtain ⟨frames, hfrs, hlast⟩ := h.live hget
      have hwrt := h.write hget state.data (f frames)
      rw [set_entry (get_iff.mp hget).2] at hwrt
      have hstep : r.step (.editFrames f) = ⟨{ r.store with frames := r.store.frames.set id.slot (f frames) },
          r.history.write id.ident (state, f frames)⟩ := by
        simp [RecordedSessions.step, SessionStore.editFrames, hedit, hlast, modify_entry hfrs]
      rw [hstep]
      exact ⟨hwrt, .write (by rw [hlast]; rfl)⟩
  | returnFrames => exact ⟨⟨h.tracks, h.owned, h.lengths, h.empty, h.named, nofun⟩, .refl _⟩
  | remove id =>
    unfold RecordedSessions.step
    dsimp only
    rcases r.store.remove_cases id with hnone | ⟨state, g, free, hget, hedit, hrem, hretr⟩
    · rw [hnone]
      exact ⟨h, .refl _⟩
    · rw [hrem]
      obtain ⟨-, hslot⟩ := get_iff.mp hget
      obtain ⟨frames, hfrs, hlast⟩ := h.live hget
      have hlive : (r.history.last id.ident).isSome := by rw [hlast]; rfl
      refine ⟨h.change hslot ?_ List.length_set (fun j hj => List.getElem?_set_ne (Ne.symm hj)) (fun _ =>
        ?_) nofun (.inl hedit),
        .retire _ _⟩
      · have htrk := h.tracks.retire hlive
        rw [show id.ident.index = id.slot from rfl, hretr] at htrk
        exact htrk
      · exact List.getElem?_set_self (List.getElem?_eq_some_iff.mp hfrs).1
  | detachObservers detach =>
    refine ⟨⟨?_, h.owned, ?_, fun i g hi => ?_, fun i g state hi => ?_, fun id hid => ?_⟩, .map _ _⟩
    · have htrk := h.tracks.map fun e => ({ e.1 with data := detach e.1.data }, e.2)
      have harena : (r.store.detachObservers detach).arena = ⟨r.store.arena.generations,
          fun i => (r.store.arena.contents i).map fun e => ({ e.1 with data := detach e.1.data }, e.2),
          r.store.arena.free⟩ := by
        unfold arena SessionStore.contents detachObservers
        simp only [List.map_map, List.getElem?_map]
        congr 1
        funext i
        rcases r.store.records.slots[i]? with _ | ⟨g, _ | state⟩ <;> rfl
      unfold RecordedSessions.step
      dsimp only
      rw [harena]
      exact htrk
    · simpa [RecordedSessions.step, SessionStore.detachObservers] using h.lengths
    · simp only [RecordedSessions.step, SessionStore.detachObservers, List.getElem?_map] at hi ⊢
      obtain ⟨⟨g', _ | state⟩, hslot, heq⟩ := map_eq_some_iff.mp hi
      · exact h.empty i g' hslot
      · cases heq
    · simp only [RecordedSessions.step, SessionStore.detachObservers, List.getElem?_map] at hi
      obtain ⟨⟨g', _ | state'⟩, hslot, heq⟩ := map_eq_some_iff.mp hi
      · cases heq
      · obtain ⟨rfl, hstate⟩ := SessionSlot.mk.inj heq
        cases hstate
        exact h.named i g' state' hslot
    · obtain ⟨state, hget⟩ := h.editing id hid
      obtain ⟨hown, hslot⟩ := get_iff.mp hget
      refine ⟨{ state with data := detach state.data }, get_iff.mpr ⟨hown, ?_⟩⟩
      simp [RecordedSessions.step, SessionStore.detachObservers, hslot]

theorem Sound.foldl (ops : List (SessionOp D F)) : ∀ {r : RecordedSessions D F}, Sound owner r →
    Sound owner (ops.foldl RecordedSessions.step r) ∧ r.history.Later (ops.foldl RecordedSessions.step r).history := by
  induction ops with
  | nil => exact fun h => ⟨h, .refl _⟩
  | cons op ops ih =>
    intro r h
    obtain ⟨hstep, hlat⟩ := h.step op
    obtain ⟨hrun, hrest⟩ := ih hstep
    exact ⟨hrun, hlat.trans hrest⟩

theorem sound_run (owner : BitVec 64) (ops : List (SessionOp D F)) : Sound owner (run owner ops) :=
  (sound_new.foldl ops).1

theorem later_run (owner : BitVec 64) (ops later : List (SessionOp D F)) :
    (run owner ops).history.Later (run owner (ops ++ later)).history := by
  unfold run
  rw [foldl_append]
  exact (Sound.foldl later (sound_run owner ops)).2

/-- What the store is at any time: the identities stand for their own sessions and frames only, no two that are live
share a slot, what is free is what is vacant and has generations left, and failures change nothing. -/
structure Exact (owner : BitVec 64) (r : RecordedSessions D F) : Prop where
  reads : ∀ id, r.store.get id = if id.owner = owner then (r.history.last id.ident).map Prod.fst else none
  frames : ∀ id frames, r.store.framesOf id = some frames ∨ r.store.framesMut id = some frames →
    id.owner = owner ∧ ∃ state, r.history.last id.ident = some (state, frames)
  fresh : r.history.issued.Nodup
  unshared : ∀ a b, (r.store.get a).isSome → (r.store.get b).isSome → a.slot = b.slot → a = b
  freeNodup : r.store.records.free.Nodup
  free : ∀ i : Nat, i ∈ r.store.records.free ↔ (∃ x, r.store.records.slots[i]? = some x ∧ x.state = none) ∧
    ⟨i, BitVec.allOnes 64⟩ ∉ r.history.issued
  inserted : ∀ data framesRoom slotsRoom id s, r.store.insert data framesRoom slotsRoom = (.ok id, s) →
    s.get id = some ⟨id, data⟩ ∧ s.frames[id.slot]? = some []
  removed : ∀ id state frames s, r.store.remove id = (some (state, frames), s) →
    id.owner = owner ∧ r.history.last id.ident = some (state, frames)
  failedInsert : ∀ data framesRoom slotsRoom e s, r.store.insert data framesRoom slotsRoom = (.error e, s) → s = r.store
  failedRemove : ∀ id s, r.store.remove id = (none, s) → s = r.store
  retired : ∀ p id, id ∈ r.store.retiredOwners p ↔ ∃ state, r.store.get id = some state ∧ p state.data
  retiredNodup : ∀ p, (r.store.retiredOwners p).Nodup

/-- What stays so: an identity that was removed does nothing, and a slot whose last generation was handed out is
not handed out again. -/
structure Lasting (r r' : RecordedSessions D F) : Prop where
  stale : ∀ id, id.ident ∈ r.history.issued → r.store.get id = none → r'.store.get id = none ∧
    r'.store.framesOf id = none ∧ r'.store.framesMut id = none ∧ (∀ f, r'.store.touch id f = r'.store) ∧
    r'.store.remove id = (none, r'.store)
  exhausted : ∀ i, ⟨i, BitVec.allOnes 64⟩ ∈ r.history.issued → ∀ id ∈ r'.history.issued, id.index = i →
    id ∈ r.history.issued

theorem Sound.mem_retired (h : Sound owner r) (p : D → Bool) : id ∈ r.store.retiredOwners p ↔
    ∃ state, r.store.get id = some state ∧ p state.data := by
  unfold retiredOwners
  rw [mem_filterMap]
  constructor
  · rintro ⟨⟨g, state⟩, hmem, hfnd⟩
    obtain ⟨state, rfl, hstate⟩ := bind_eq_some_iff.mp hfnd
    split at hstate
    · rename_i hp
      cases hstate
      obtain ⟨i, hslot⟩ := getElem?_of_mem hmem
      have hnamed := h.named i g state hslot
      refine ⟨state, get_iff.mpr ?_, hp⟩
      rw [hnamed]
      exact ⟨h.owned.symm, hslot⟩
    · cases hstate
  · rintro ⟨state, hget, hp⟩
    obtain ⟨hown, hslot⟩ := get_iff.mp hget
    refine ⟨_, mem_of_getElem? hslot, ?_⟩
    have hnamed := h.named id.slot id.generation state hslot
    rw [← h.owned, ← hown] at hnamed
    simp [hp, hnamed]

theorem Sound.nodup_retired (h : Sound owner r) (p : D → Bool) : (r.store.retiredOwners p).Nodup := by
  have hsl : r.store.records.slots.Pairwise fun a b =>
      ∀ s t, a.state = some s → b.state = some t → s.id ≠ t.id := by
    rw [pairwise_iff_getElem]
    intro i j hi hj hij s t hs ht heq
    have hs' : r.store.records.slots[i]? = some ⟨r.store.records.slots[i].generation, some s⟩ := by
      rw [getElem?_eq_getElem hi, ← hs]
    have ht' : r.store.records.slots[j]? = some ⟨r.store.records.slots[j].generation, some t⟩ := by
      rw [getElem?_eq_getElem hj, ← ht]
    rw [h.named i _ s hs', h.named j _ t ht'] at heq
    exact Nat.ne_of_lt hij (congrArg SessionId.slot heq)
  refine hsl.filterMap _ fun a b hne id hid id' hid' heq => ?_
  obtain ⟨s, hs, hid⟩ := bind_eq_some_iff.mp hid
  obtain ⟨t, ht, hid'⟩ := bind_eq_some_iff.mp hid'
  split at hid <;> split at hid' <;> simp_all

theorem Sound.exact (h : Sound owner r) : Exact owner r where
  reads := h.get
  frames id frames hfrs := by
    have hbkt : ∃ state, r.store.get id = some state ∧ r.store.frames[id.slot]? = some frames := by
      rcases hfrs with hfrs | hfrs
      all_goals
        obtain ⟨state, hget, hbkt⟩ := bind_eq_some_iff.mp hfrs
        split at hbkt
      · cases hbkt
      · exact ⟨state, hget, hbkt⟩
      · exact ⟨state, hget, hbkt⟩
      · cases hbkt
    obtain ⟨state, hget, hbkt⟩ := hbkt
    obtain ⟨frames', hfrs', hlast⟩ := h.live hget
    cases hbkt.symm.trans hfrs'
    exact ⟨(get_iff.mp hget).1.trans h.owned, state, hlast⟩
  fresh := h.tracks.nodup
  unshared a b ha hb hslot := by
    obtain ⟨state, ha⟩ := isSome_iff_exists.mp ha
    obtain ⟨state', hb⟩ := isSome_iff_exists.mp hb
    obtain ⟨haowner, ha⟩ := get_iff.mp ha
    obtain ⟨hbowner, hb⟩ := get_iff.mp hb
    rw [hslot] at ha
    have hgen := congrArg SessionSlot.generation (some.inj (ha.symm.trans hb))
    obtain ⟨aOwner, aSlot, aGeneration⟩ := a
    obtain ⟨bOwner, bSlot, bGeneration⟩ := b
    simp_all
  freeNodup := h.tracks.freeNodup
  free i := by
    have hvac : (i < r.store.arena.generations.length ∧ r.store.arena.contents i = none) ↔
        ∃ x, r.store.records.slots[i]? = some x ∧ x.state = none := by
      simp only [arena, SessionStore.contents, List.length_map]
      constructor
      · rintro ⟨hlt, hnone⟩
        refine ⟨_, List.getElem?_eq_getElem hlt, ?_⟩
        simpa [hlt] using hnone
      · rintro ⟨x, hx, hstate⟩
        exact ⟨(List.getElem?_eq_some_iff.mp hx).1, by simp [hx, hstate]⟩
    rw [← hvac, and_assoc]
    exact h.tracks.free i
  inserted data framesRoom slotsRoom id s hok := by
    obtain ⟨hown, -, -, -, -, hemp, ⟨howned, -⟩, hself, -⟩ := insert_ok hok h.lengths fun i => h.free
    exact ⟨get_iff.mpr ⟨hown.trans howned.symm, hself⟩, hemp⟩
  removed id state frames s hrem := by
    rcases r.store.remove_cases id with hnone | ⟨state', g, free, hget, -, hsome, -⟩
    · rw [hnone] at hrem
      cases congrArg Prod.fst hrem
    · rw [hsome] at hrem
      obtain ⟨heq, -⟩ := Prod.mk.inj hrem
      cases heq
      obtain ⟨frames, hfrs, hlast⟩ := h.live hget
      rw [hfrs]
      exact ⟨(get_iff.mp hget).1.trans h.owned, hlast⟩
  failedInsert _ _ _ _ _ := insert_error
  failedRemove id s hrem := by
    rcases r.store.remove_cases id with hnone | ⟨state', g, free, hget, -, hsome, -⟩
    · rw [hnone] at hrem
      exact (Prod.mk.inj hrem).2.symm
    · rw [hsome] at hrem
      cases congrArg Prod.fst hrem
  retired p _ := h.mem_retired p
  retiredNodup := h.nodup_retired

theorem Sound.lasting {r' : RecordedSessions D F} (h : Sound owner r) (h' : Sound owner r')
    (hlat : r.history.Later r'.history) : Lasting r r' := by
  refine ⟨fun id hissued hnone => ?_, hlat.exhausted⟩
  have hgone : r'.store.get id = none := by
    have hbef := h.get id
    have hread := h'.get id
    split at hread
    · rename_i hown
      rw [hnone, if_pos hown] at hbef
      rw [hlat.retired id.ident hissued (map_eq_none_iff.mp hbef.symm)] at hread
      exact hread
    · exact hread
  exact ⟨hgone, stale hgone⟩

end RecordedSessions

theorem sessions_identities (owner : BitVec 64) (ops : List (SessionOp D F)) :
    (RecordedSessions.run owner ops).Exact owner ∧
      ∀ later, (RecordedSessions.run owner ops).Lasting (RecordedSessions.run owner (ops ++ later)) :=
  ⟨(RecordedSessions.sound_run owner ops).exact, fun later => (RecordedSessions.sound_run owner ops).lasting
    (RecordedSessions.sound_run owner (ops ++ later)) (RecordedSessions.later_run owner ops later)⟩

end Kagari.Runtime.Session

namespace Kagari.Runtime

/-- The generational stores of tasks and of sessions, over any run of either. -/
theorem generational_stores {T D F : Type} :
    (∀ (owner : BitVec 64) (limit : Nat) (ops : List (Task.SlotsOp T)),
      (Task.RecordedSlots.run owner limit ops).Exact owner limit ∧
        ∀ later, (Task.RecordedSlots.run owner limit ops).Lasting (Task.RecordedSlots.run owner limit (ops ++ later))) ∧
    ∀ (owner : BitVec 64) (ops : List (Session.SessionOp D F)),
      (Session.RecordedSessions.run owner ops).Exact owner ∧
        ∀ later, (Session.RecordedSessions.run owner ops).Lasting (Session.RecordedSessions.run owner (ops ++ later)) :=
  ⟨Task.slots_identities, Session.sessions_identities⟩

end Kagari.Runtime
