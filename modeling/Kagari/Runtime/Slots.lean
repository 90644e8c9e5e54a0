import Kagari.Lib.Arena
import Mathlib.Data.List.Sigma

/-!
# The records of tasks and scopes

`Slots` keeps at most `limit` records. A slot is reserved first and its record inserted later; after a removal it
is reserved again under the next generation. Whether memory can be reserved is a parameter of `reserve`.

An arena of `Lib.Arena` stands for the slots, so an identity is read through the history of the arena
(`slots_identities`).
-/

namespace Kagari.Runtime.Task

open Lib Function List Option

structure Identity where
  owner : BitVec 64
  slot : Nat
  generation : BitVec 64
deriving DecidableEq

def Identity.ident (id : Identity) : Ident 64 := ⟨id.slot, id.generation⟩

structure Slot (T : Type) where
  generation : BitVec 64
  reserved : Bool
  value : Option T

structure Slots (T : Type) where
  owner : BitVec 64
  limit : Nat
  slots : List (Slot T)
  /-- The next slot to use stands first. -/
  free : List Nat
  count : Nat

inductive SpawnError where
  | capacityExceeded
deriving DecidableEq

variable {T : Type}

namespace Slots

def new (owner : BitVec 64) (limit : Nat) : Slots T := ⟨owner, limit, [], [], 0⟩

/-- The end of `reserve`, with a slot that is in bounds. -/
def enter (s : Slots T) (slot : Nat) : Identity × Slots T :=
  (⟨s.owner, slot, ((s.slots[slot]?).map (·.generation)).getD 0⟩,
    { s with slots := s.slots.modify slot ({ · with reserved := true }), count := s.count + 1 })

def reserve (s : Slots T) (freeRoom slotsRoom : Bool) : Except SpawnError Identity × Slots T :=
  if s.count ≥ s.limit then (.error .capacityExceeded, s)
  else match s.free with
    | slot :: free =>
      let (id, s) := { s with free }.enter slot
      (.ok id, s)
    | [] =>
      if !freeRoom then (.error .capacityExceeded, s)
      else if !slotsRoom then (.error .capacityExceeded, s)
      else
        let slots := s.slots ++ [Slot.mk 0 false none]
        let (id, s) := { s with slots }.enter s.slots.length
        (.ok id, s)

def slot (s : Slots T) (id : Identity) : Option (Slot T) :=
  (s.slots[id.slot]?).filter fun slot => id.owner = s.owner && slot.generation = id.generation && slot.reserved

/-- `none` when the assertion fails. -/
def insert (s : Slots T) (id : Identity) (value : T) : Option (Slots T) :=
  if (s.slot id).any (·.value.isNone) then
    some { s with slots := s.slots.modify id.slot ({ · with value := some value }) }
  else none

def get (s : Slots T) (id : Identity) : Option T := (s.slot id).bind (·.value)

/-- `get_mut`, with what the caller does to the record. -/
def getMut (s : Slots T) (id : Identity) (f : T → T) : Slots T :=
  match s.slot id with
  | none => s
  | some _ => { s with slots := s.slots.modify id.slot fun slot => { slot with value := slot.value.map f } }

def checkedNext (g : BitVec 64) : Option (BitVec 64) := if g = BitVec.allOnes 64 then none else some (g + 1)

def remove (s : Slots T) (id : Identity) : Option T × Slots T :=
  match s.slot id with
  | none => (none, s)
  | some slot =>
    let vacated := { slot with value := none, reserved := false }
    match checkedNext slot.generation with
    | none => (slot.value, { s with slots := s.slots.set id.slot vacated, count := s.count - 1 })
    | some generation => (slot.value, { s with
        slots := s.slots.set id.slot { vacated with generation }, free := id.slot :: s.free, count := s.count - 1 })

def iter (s : Slots T) : List (Identity × T) :=
  s.slots.zipIdx.filterMap fun (slot, index) => slot.value.map fun value => (⟨s.owner, index, slot.generation⟩, value)

end Slots

inductive SlotsOp (T : Type) where
  | reserve (freeRoom slotsRoom : Bool)
  | insert (id : Identity) (value : T)
  | getMut (id : Identity) (f : T → T)
  | remove (id : Identity)

/-- The slots, and the history of their identities. -/
structure RecordedSlots (T : Type) where
  slots : Slots T
  history : History 64 (Option T)

namespace RecordedSlots

def step (r : RecordedSlots T) : SlotsOp T → RecordedSlots T
  | .reserve freeRoom slotsRoom =>
    match r.slots.reserve freeRoom slotsRoom with
    | (.error _, slots) => { r with slots }
    | (.ok id, slots) => ⟨slots, r.history.issue id.ident none⟩
  | .insert id value =>
    match r.slots.insert id value with
    | none => r
    | some slots => ⟨slots, r.history.write id.ident (some value)⟩
  | .getMut id f => ⟨r.slots.getMut id f,
      match r.slots.get id with
      | none => r.history
      | some value => r.history.write id.ident (some (f value))⟩
  | .remove id => ⟨(r.slots.remove id).2,
      match r.slots.slot id with
      | none => r.history
      | some _ => r.history.retire id.ident⟩

def run (owner : BitVec 64) (limit : Nat) (ops : List (SlotsOp T)) : RecordedSlots T :=
  ops.foldl step ⟨.new owner limit, .empty⟩

end RecordedSlots

/-! ## The arena of the slots -/

/-- A reserved slot holds a record, or none yet. -/
def Slot.content (slot : Slot T) : Option (Option T) := if slot.reserved then some slot.value else none

namespace Slots

def contents (s : Slots T) (i : Nat) : Option (Option T) := (s.slots[i]?).bind Slot.content

def arena (s : Slots T) : Arena 64 (Option T) := ⟨s.slots.map (·.generation), s.contents, s.free⟩

variable {s s' : Slots T} {id : Identity} {i : Nat} {x : Slot T}

theorem slot_iff : s.slot id = some x ↔
    s.slots[id.slot]? = some x ∧ id.owner = s.owner ∧ x.generation = id.generation ∧ x.reserved = true := by
  unfold Slots.slot
  rw [filter_eq_some_iff]
  simp only [Bool.and_eq_true, decide_eq_true_eq, and_assoc]

theorem slot_read (s : Slots T) (id : Identity) :
    (s.slot id).map (·.value) = if id.owner = s.owner then s.arena.read id.ident else none := by
  unfold Slots.slot Arena.read arena contents Slot.content Identity.ident
  simp only [getElem?_map]
  cases s.slots[id.slot]? with
  | none => simp
  | some x =>
    by_cases hown : id.owner = s.owner
    · by_cases hgen : x.generation = id.generation
      · by_cases hrsvd : x.reserved = true <;> simp [hown, hgen, hrsvd, Option.filter]
      · simp [hown, hgen, Option.filter]
    · simp [hown, Option.filter]

/-- The arena after one slot changes. -/
theorem arena_set (hslot : s.slots[i]? = some x) (x' : Slot T) (free : List Nat) (count : Nat) :
    arena { s with slots := s.slots.set i x', free, count } =
      ⟨s.arena.generations.set i x'.generation, update s.arena.contents i x'.content, free⟩ := by
  unfold arena
  congr 1
  · exact List.map_set
  · funext j
    unfold contents
    by_cases hj : j = i
    · subst hj
      rw [update_self, List.getElem?_set_self (List.getElem?_eq_some_iff.mp hslot).1]
      rfl
    · rw [update_of_ne hj, List.getElem?_set_ne (Ne.symm hj)]

theorem generations_set (hslot : s.slots[i]? = some x) :
    s.arena.generations.set i x.generation = s.arena.generations := map_set_entry hslot (·.generation)

/-- A vacant slot is entered. -/
theorem enter_eq (hslot : s.slots[i]? = some x) : s.enter i = (⟨s.owner, i, x.generation⟩,
    { s with slots := s.slots.set i { x with reserved := true }, count := s.count + 1 }) := by
  unfold enter
  rw [modify_entry hslot, hslot]
  rfl

theorem countP_set (hslot : s.slots[i]? = some x) (x' : Slot T) : (s.slots.set i x').countP (·.reserved) =
    s.slots.countP (·.reserved) - (if x.reserved then 1 else 0) + (if x'.reserved then 1 else 0) := by
  obtain ⟨hlt, rfl⟩ := List.getElem?_eq_some_iff.mp hslot
  exact List.countP_set hlt

/-- A reservation, where the free slots are vacant, is one of the arena. -/
theorem reserve_ok {freeRoom slotsRoom : Bool} (h : s.reserve freeRoom slotsRoom = (.ok id, s'))
    (hfree : ∀ i ∈ s.free, ∃ x, s.slots[i]? = some x ∧ x.reserved = false ∧ x.value = none) :
    id.owner = s.owner ∧ id.ident = (s.arena.alloc none).2 ∧ s'.arena = (s.arena.alloc none).1 ∧
      s'.owner = s.owner ∧ s'.limit = s.limit ∧ s.count < s.limit ∧ s'.count = s.count + 1 ∧
      s'.slots.countP (·.reserved) = s.slots.countP (·.reserved) + 1 ∧
      ∀ x ∈ s'.slots, x ∈ s.slots ∨ x.reserved = true := by
  unfold reserve at h
  split at h
  · cases congrArg Prod.fst h
  rename_i hcnt
  have hlim : s.count < s.limit := by omega
  split at h
  · rename_i slot free hcons
    obtain ⟨x, hslot, hrsvd, hval⟩ := hfree slot (by simp [hcons])
    rw [enter_eq (s := { s with free }) hslot] at h
    obtain ⟨hid, rfl⟩ := Prod.mk.inj h
    cases hid
    refine ⟨rfl, ?_, ?_, rfl, rfl, hlim, rfl, ?_, fun y hy => ?_⟩
    · simp [Arena.alloc, arena, hcons, hslot, Identity.ident]
    · rw [arena_set hslot, generations_set hslot]
      simp [Arena.alloc, arena, hcons, Slot.content, hval]
    · rw [countP_set hslot]
      simp [hrsvd]
    · rcases mem_or_eq_of_mem_set hy with hy | rfl
      · exact .inl hy
      · exact .inr rfl
  · rename_i hnil
    split at h
    · cases congrArg Prod.fst h
    split at h
    · cases congrArg Prod.fst h
    have hslot : (s.slots ++ [Slot.mk 0 false none])[s.slots.length]? = some ⟨0, false, (none : Option T)⟩ := by simp
    have hset : (s.slots ++ [Slot.mk 0 false none]).set s.slots.length ⟨0, true, (none : Option T)⟩ =
        s.slots ++ [⟨0, true, none⟩] := by simp
    dsimp only at h
    rw [enter_eq hslot, hset] at h
    obtain ⟨hid, rfl⟩ := Prod.mk.inj h
    cases hid
    refine ⟨rfl, ?_, ?_, rfl, rfl, hlim, rfl, by simp, fun y hy => ?_⟩
    · simp [Arena.alloc, arena, hnil, Identity.ident]
    · simp only [Arena.alloc, arena, hnil, map_append, map_cons, map_nil, length_map]
      congr 1
      funext j
      unfold contents
      dsimp only
      rcases Nat.lt_trichotomy j s.slots.length with hlt | rfl | hgt
      · rw [getElem?_append_left hlt, update_of_ne (Nat.ne_of_lt hlt)]
      · rw [getElem?_concat_length, update_self]
        rfl
      · rw [update_of_ne (Nat.ne_of_gt hgt), getElem?_eq_none (by simp; omega),
          getElem?_eq_none (by omega)]
    · rcases mem_append.mp hy with hy | hy
      · exact .inl hy
      · exact .inr (by rw [mem_singleton.mp hy])

theorem reserve_error {freeRoom slotsRoom : Bool} {e : SpawnError}
    (h : s.reserve freeRoom slotsRoom = (.error e, s')) : s' = s := by
  unfold reserve at h
  split at h
  · exact (Prod.mk.inj h).2.symm
  split at h
  · cases congrArg Prod.fst h
  · split at h
    · exact (Prod.mk.inj h).2.symm
    split at h
    · exact (Prod.mk.inj h).2.symm
    · cases congrArg Prod.fst h

/-- The record of a reserved slot is written. -/
theorem arena_write (hslot : s.slot id = some x) (value : Option T) :
    arena { s with slots := s.slots.set id.slot { x with value } } = s.arena.write id.slot value := by
  obtain ⟨hslot, -, -, hrsvd⟩ := slot_iff.mp hslot
  rw [arena_set hslot { x with value } s.free s.count]
  unfold Arena.write
  simp only [Slot.content, hrsvd, if_true]
  congr 1
  exact generations_set hslot

/-- A reserved slot is vacated. -/
theorem arena_remove (hslot : s.slot id = some x) : (s.remove id).1 = x.value ∧
    (s.remove id).2.arena = s.arena.retire id.slot ∧ (s.remove id).2.owner = s.owner ∧
    (s.remove id).2.limit = s.limit ∧ (s.remove id).2.count = s.count - 1 ∧
    ∃ g, (s.remove id).2.slots = s.slots.set id.slot ⟨g, false, none⟩ := by
  obtain ⟨hget, -, -, -⟩ := slot_iff.mp hslot
  have hgen : s.arena.generations[id.slot]? = some x.generation := by simp [arena, hget]
  unfold remove
  rw [hslot]
  dsimp only
  unfold checkedNext
  by_cases hlast : x.generation = BitVec.allOnes 64
  · rw [if_pos hlast]
    refine ⟨rfl, ?_, rfl, rfl, rfl, _, rfl⟩
    dsimp only
    rw [arena_set hget, generations_set (x := x) hget]
    simp only [Arena.retire, hgen, hlast, if_true]
    rfl
  · rw [if_neg hlast]
    refine ⟨rfl, ?_, rfl, rfl, rfl, _, rfl⟩
    dsimp only
    rw [arena_set hget]
    simp only [Arena.retire, hgen, hlast, if_false]
    rfl

end Slots

/-! ## Runs -/

namespace RecordedSlots

open Slots

/-- The slots are the arena of the history, and as many are reserved as are counted. -/
structure Sound (owner : BitVec 64) (limit : Nat) (r : RecordedSlots T) : Prop where
  tracks : Tracks r.slots.arena r.history
  owned : r.slots.owner = owner
  limited : r.slots.limit = limit
  vacant : ∀ x ∈ r.slots.slots, x.reserved = false → x.value = none
  count : r.slots.count = r.slots.slots.countP (·.reserved)
  within : r.slots.count ≤ limit

variable {owner : BitVec 64} {limit : Nat} {r : RecordedSlots T} {id : Identity}

theorem sound_new : Sound owner limit (⟨.new owner limit, .empty⟩ : RecordedSlots T) where
  tracks := .empty
  owned := rfl
  limited := rfl
  vacant := nofun
  count := rfl
  within := Nat.zero_le _

theorem Sound.slot (h : Sound owner limit r) (id : Identity) :
    (r.slots.slot id).map (·.value) = if id.owner = owner then r.history.last id.ident else none := by
  rw [slot_read, h.owned, h.tracks.reads]

theorem Sound.live (h : Sound owner limit r) {x : Slot T} (hslot : r.slots.slot id = some x) :
    r.history.last id.ident = some x.value := by
  have hread := h.slot id
  rw [hslot] at hread
  split at hread
  · exact hread.symm
  · cases hread

theorem Sound.free (h : Sound owner limit r) {i : Nat} (hi : i ∈ r.slots.free) :
    ∃ x, r.slots.slots[i]? = some x ∧ x.reserved = false ∧ x.value = none := by
  obtain ⟨hlt, hvac, -⟩ := (h.tracks.free i).mp hi
  have hbnd : i < r.slots.slots.length := by simpa [arena] using hlt
  have hslot : r.slots.slots[i]? = some r.slots.slots[i] := getElem?_eq_getElem hbnd
  have hrsvd : r.slots.slots[i].reserved = false := by simpa [arena, contents, hslot, Slot.content] using hvac
  exact ⟨_, hslot, hrsvd, h.vacant _ (getElem_mem _) hrsvd⟩

/-- A record changes. -/
theorem Sound.write (h : Sound owner limit r) {x : Slot T} (hslot : r.slots.slot id = some x) (value : Option T) :
    Sound owner limit ⟨{ r.slots with slots := r.slots.slots.set id.slot { x with value } },
      r.history.write id.ident value⟩ := by
  obtain ⟨hget, -, -, hrsvd⟩ := slot_iff.mp hslot
  refine ⟨?_, h.owned, h.limited, fun y hy hvac => ?_, ?_, h.within⟩
  · rw [arena_write hslot]
    exact h.tracks.write (by rw [h.live hslot]; rfl) value
  · rcases mem_or_eq_of_mem_set hy with hy | rfl
    · exact h.vacant y hy hvac
    · rw [hrsvd] at hvac
      cases hvac
  · rw [countP_set hget, ← h.count]
    have hpos : 0 < r.slots.slots.countP (·.reserved) :=
      countP_pos_iff.mpr ⟨x, mem_of_getElem? hget, hrsvd⟩
    simp only [hrsvd, if_true]
    have := h.count
    omega

theorem Sound.step (h : Sound owner limit r) (op : SlotsOp T) :
    Sound owner limit (r.step op) ∧ r.history.Later (r.step op).history := by
  cases op with
  | reserve freeRoom slotsRoom =>
    unfold RecordedSlots.step
    dsimp only
    split
    · rename_i e slots herr
      rw [reserve_error herr]
      exact ⟨h, .refl _⟩
    · rename_i id slots hok
      obtain ⟨hown, hident, harena, hsowner, hslimit, hless, hcnt, hrsvd, hsl⟩ := reserve_ok hok fun i => h.free
      have htrk : Tracks slots.arena (r.history.issue id.ident none) := by
        rw [harena, hident]
        exact h.tracks.alloc none
      refine ⟨⟨htrk, hsowner.trans h.owned, hslimit.trans h.limited, fun x hx hvac => ?_, ?_, ?_⟩, .issue htrk⟩
      · rcases hsl x hx with hx | hx
        · exact h.vacant x hx hvac
        · rw [hx] at hvac
          cases hvac
      · dsimp only
        rw [hcnt, hrsvd, h.count]
      · have hlim := h.limited
        dsimp only
        omega
  | insert id value =>
    unfold RecordedSlots.step Slots.insert
    dsimp only
    cases hslot : r.slots.slot id with
    | none => exact ⟨h, .refl _⟩
    | some x =>
      by_cases hval : x.value.isNone = true
      · simp only [any_some, hval, if_true]
        rw [modify_entry (slot_iff.mp hslot).1]
        exact ⟨h.write hslot (some value), .write (by rw [h.live hslot]; rfl)⟩
      · simp only [any_some, hval]
        exact ⟨h, .refl _⟩
  | getMut id f =>
    unfold RecordedSlots.step Slots.getMut Slots.get
    dsimp only
    cases hslot : r.slots.slot id with
    | none => exact ⟨h, .refl _⟩
    | some x =>
      obtain ⟨generation, reserved, value⟩ := x
      dsimp only [bind_some]
      rw [modify_entry (slot_iff.mp hslot).1]
      cases value with
      | none =>
        -- nothing was published under the identity
        dsimp only [map_none]
        rw [set_entry (slot_iff.mp hslot).1]
        exact ⟨h, .refl _⟩
      | some value => exact ⟨h.write hslot (some (f value)), .write (by rw [h.live hslot]; rfl)⟩
  | remove id =>
    unfold RecordedSlots.step
    dsimp only
    cases hslot : r.slots.slot id with
    | none =>
      unfold Slots.remove
      rw [hslot]
      exact ⟨h, .refl _⟩
    | some x =>
      obtain ⟨hget, -, -, hrsvd⟩ := slot_iff.mp hslot
      obtain ⟨-, harena, hown, hlim, hcnt, g, hsl⟩ := arena_remove hslot
      have hlive : (r.history.last id.ident).isSome := by rw [h.live hslot]; rfl
      refine ⟨⟨?_, hown.trans h.owned, hlim.trans h.limited, fun y hy _ => ?_, ?_, ?_⟩, .retire _ _⟩
      · rw [harena]
        exact h.tracks.retire hlive
      · rw [hsl] at hy
        rcases mem_or_eq_of_mem_set hy with hy | rfl
        · exact h.vacant y hy ‹_›
        · rfl
      · dsimp only
        rw [hcnt, hsl, countP_set hget, h.count]
        simp [hrsvd]
      · have hwith := h.within
        dsimp only
        omega

theorem Sound.foldl (ops : List (SlotsOp T)) : ∀ {r : RecordedSlots T}, Sound owner limit r →
    Sound owner limit (ops.foldl RecordedSlots.step r) ∧ r.history.Later (ops.foldl RecordedSlots.step r).history := by
  induction ops with
  | nil => exact fun h => ⟨h, .refl _⟩
  | cons op ops ih =>
    intro r h
    obtain ⟨hstep, hlat⟩ := h.step op
    obtain ⟨hrun, hrest⟩ := ih hstep
    exact ⟨hrun, hlat.trans hrest⟩

theorem sound_run (owner : BitVec 64) (limit : Nat) (ops : List (SlotsOp T)) :
    Sound owner limit (run owner limit ops) := (sound_new.foldl ops).1

theorem later_run (owner : BitVec 64) (limit : Nat) (ops later : List (SlotsOp T)) :
    (run owner limit ops).history.Later (run owner limit (ops ++ later)).history := by
  unfold run
  rw [foldl_append]
  exact (Sound.foldl later (sound_run owner limit ops)).2

end RecordedSlots

variable {id : Identity} {s : Slots T}

namespace Slots

/-- Nothing is done through an identity that names no reserved slot. -/
theorem stale (h : s.slot id = none) : s.get id = none ∧
    (∀ value, s.insert id value = none) ∧ (∀ f, s.getMut id f = s) ∧ s.remove id = (none, s) := by
  unfold get insert getMut remove
  rw [h]
  exact ⟨rfl, fun _ => rfl, fun _ => rfl, rfl⟩

/-- Of one slot only one identity is live. -/
theorem slot_unique {a b : Identity} (ha : (s.slot a).isSome) (hb : (s.slot b).isSome)
    (hslot : a.slot = b.slot) : a = b := by
  obtain ⟨x, ha⟩ := isSome_iff_exists.mp ha
  obtain ⟨y, hb⟩ := isSome_iff_exists.mp hb
  obtain ⟨hx, hxowner, hxgeneration, -⟩ := slot_iff.mp ha
  obtain ⟨hy, hyowner, hygeneration, -⟩ := slot_iff.mp hb
  rw [hslot] at hx
  cases hx.symm.trans hy
  obtain ⟨owner, slot, generation⟩ := a
  obtain ⟨owner', slot', generation'⟩ := b
  simp_all

/-- An iteration meets the records under their identities. -/
theorem mem_iter (hvac : ∀ x ∈ s.slots, x.reserved = false → x.value = none)
    {value : T} : (id, value) ∈ s.iter ↔ s.get id = some value := by
  unfold iter get
  rw [mem_filterMap, bind_eq_some_iff]
  constructor
  · rintro ⟨⟨x, index⟩, hmem, hval⟩
    obtain ⟨found, hfnd, heq⟩ := map_eq_some_iff.mp hval
    cases heq
    have hx : s.slots[index]? = some x := by simpa using mem_zipIdx_iff_getElem?.mp hmem
    refine ⟨x, slot_iff.mpr ⟨hx, rfl, rfl, ?_⟩, hfnd⟩
    by_contra hrsvd
    rw [hvac x (mem_of_getElem? hx) (by simpa using hrsvd)] at hfnd
    cases hfnd
  · rintro ⟨x, hslot, hval⟩
    obtain ⟨hx, hown, hgen, -⟩ := slot_iff.mp hslot
    refine ⟨(x, id.slot), mem_zipIdx_iff_getElem?.mpr (by simpa using hx), ?_⟩
    dsimp only
    rw [hval, ← hown, hgen]
    rfl

theorem nodup_iter (s : Slots T) : (s.iter.map Prod.fst).Nodup := by
  have hidx : s.slots.zipIdx.Pairwise fun a b => a.2 ≠ b.2 :=
    pairwise_map.mp (nodup_zipIdx_map_snd s.slots)
  unfold iter
  rw [map_filterMap]
  refine hidx.filterMap _ fun a b hne id hid id' hid' heq => hne ?_
  obtain ⟨value, -, rfl⟩ := Option.map_eq_some_iff.mp (Option.map_map .. ▸ Option.mem_def.mp hid)
  obtain ⟨value', -, rfl⟩ := Option.map_eq_some_iff.mp (Option.map_map .. ▸ Option.mem_def.mp hid')
  exact congrArg Identity.slot heq

end Slots

namespace RecordedSlots

/-- What the slots are at any time: the identities stand for their own records only, no two that are live share a
slot, what is free is what is vacant and has generations left, and failures change nothing. -/
structure Exact (owner : BitVec 64) (limit : Nat) (r : RecordedSlots T) : Prop where
  reads : ∀ id, (r.slots.slot id).map (·.value) = if id.owner = owner then r.history.last id.ident else none
  fresh : r.history.issued.Nodup
  unshared : ∀ a b, (r.slots.slot a).isSome → (r.slots.slot b).isSome → a.slot = b.slot → a = b
  freeNodup : r.slots.free.Nodup
  free : ∀ i, i ∈ r.slots.free ↔ (∃ x, r.slots.slots[i]? = some x ∧ x.reserved = false) ∧
    ⟨i, BitVec.allOnes 64⟩ ∉ r.history.issued
  failedReserve : ∀ freeRoom slotsRoom e s, r.slots.reserve freeRoom slotsRoom = (.error e, s) → s = r.slots
  failedRemove : ∀ id, r.slots.slot id = none → r.slots.remove id = (none, r.slots)
  count : r.slots.count = r.slots.slots.countP (·.reserved)
  within : r.slots.count ≤ limit
  iter : ∀ id value, (id, value) ∈ r.slots.iter ↔ r.slots.get id = some value
  iterNodup : (r.slots.iter.map Prod.fst).Nodup

/-- What stays so: an identity that was removed does nothing, and a slot whose last generation was handed out is
not handed out again. -/
structure Lasting (r r' : RecordedSlots T) : Prop where
  stale : ∀ id, id.ident ∈ r.history.issued → r.slots.slot id = none → r'.slots.slot id = none ∧
    r'.slots.get id = none ∧ (∀ value, r'.slots.insert id value = none) ∧ (∀ f, r'.slots.getMut id f = r'.slots) ∧
    r'.slots.remove id = (none, r'.slots)
  exhausted : ∀ i, ⟨i, BitVec.allOnes 64⟩ ∈ r.history.issued → ∀ id ∈ r'.history.issued, id.index = i →
    id ∈ r.history.issued

variable {owner : BitVec 64} {limit : Nat} {r r' : RecordedSlots T}

theorem Sound.exact (h : Sound owner limit r) : Exact owner limit r where
  reads := h.slot
  fresh := h.tracks.nodup
  unshared _ _ := Slots.slot_unique
  freeNodup := h.tracks.freeNodup
  free i := by
    have hvac : (i < r.slots.arena.generations.length ∧ r.slots.arena.contents i = none) ↔
        ∃ x, r.slots.slots[i]? = some x ∧ x.reserved = false := by
      simp only [Slots.arena, Slots.contents, List.length_map]
      constructor
      · rintro ⟨hlt, hnone⟩
        refine ⟨_, List.getElem?_eq_getElem hlt, ?_⟩
        simpa [Slot.content, hlt] using hnone
      · rintro ⟨x, hx, hrsvd⟩
        exact ⟨(List.getElem?_eq_some_iff.mp hx).1, by simp [hx, Slot.content, hrsvd]⟩
    rw [← hvac, and_assoc]
    exact h.tracks.free i
  failedReserve _ _ _ _ := Slots.reserve_error
  failedRemove id hnone := (Slots.stale hnone).2.2.2
  count := h.count
  within := h.within
  iter id value := Slots.mem_iter h.vacant
  iterNodup := Slots.nodup_iter _

theorem Sound.lasting (h : Sound owner limit r) (h' : Sound owner limit r') (hlat : r.history.Later r'.history) :
    Lasting r r' := by
  refine ⟨fun id hissued hnone => ?_, hlat.exhausted⟩
  have hgone : r'.slots.slot id = none := by
    have hread := h'.slot id
    split at hread
    · rename_i hown
      have hlast : r.history.last id.ident = none := by
        have hbef := h.slot id
        rw [hnone, if_pos hown] at hbef
        exact hbef.symm
      rw [hlat.retired id.ident hissued hlast] at hread
      exact map_eq_none_iff.mp hread
    · exact map_eq_none_iff.mp hread
  exact ⟨hgone, Slots.stale hgone⟩

end RecordedSlots

theorem slots_identities (owner : BitVec 64) (limit : Nat) (ops : List (SlotsOp T)) :
    (RecordedSlots.run owner limit ops).Exact owner limit ∧
      ∀ later, (RecordedSlots.run owner limit ops).Lasting (RecordedSlots.run owner limit (ops ++ later)) :=
  ⟨(RecordedSlots.sound_run owner limit ops).exact, fun later => (RecordedSlots.sound_run owner limit ops).lasting
    (RecordedSlots.sound_run owner limit (ops ++ later)) (RecordedSlots.later_run owner limit ops later)⟩

end Kagari.Runtime.Task
