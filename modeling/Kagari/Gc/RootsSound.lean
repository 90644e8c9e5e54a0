import Kagari.Gc.Roots

/-!
# The registry of roots

What holds of the registry and its queue after any steps.
-/

namespace Kagari.Gc

open Lib List

variable {heap : Nat}

/-- The active slots are the occupied ones, and each entry knows its place. -/
def Placed (slots : Table RootSlot) (active : List Nat) : Prop :=
  ∀ (i slot : Nat), active[i]? = some slot ↔ ∃ held, slots.get slot = some held ∧ held.entry.activeIndex = i

theorem getElem?_concat_cases {α : Type} {items : List α} {a b : α} {i : Nat}
    (h : (items ++ [a])[i]? = some b) : items[i]? = some b ∨ i = items.length ∧ b = a := by
  rw [List.getElem?_append] at h
  split at h
  · exact .inl h
  · rename_i hlt
    obtain ⟨hi, rfl⟩ := List.getElem?_eq_some_iff.mp h
    rw [List.length_singleton] at hi
    exact .inr ⟨by omega, by simp⟩

variable {held : RootSlot} {slot : Nat} {change : Handles → Handles} {id : RootId} {loan : Loan}
  {roots : Roots} (r : Roots) (steps : List Step)

theorem Placed.push {slots slots' : Table RootSlot} {active : List Nat} (h : Placed slots active)
    (hfree : slots.get slot = none) (hidx : held.entry.activeIndex = active.length)
    (hget : ∀ j, slots'.get j = if j = slot then some held else slots.get j) : Placed slots' (active ++ [slot]) := by
  intro i other
  rw [hget]
  have hold := h i other
  by_cases hother : other = slot
  · subst hother
    rw [if_pos rfl]
    rw [hfree] at hold
    constructor
    · intro hi
      rcases getElem?_concat_cases hi with hi | hi
      · obtain ⟨_, hnone, -⟩ := hold.mp hi
        cases hnone
      · exact ⟨held, rfl, hidx.trans hi.1.symm⟩
    · rintro ⟨held', hheld', hi⟩
      cases hheld'
      rw [← hi, hidx]
      exact List.getElem?_concat_length
  · rw [if_neg hother, ← hold]
    constructor
    · intro hi
      rcases getElem?_concat_cases hi with hi | hi
      · exact hi
      · exact absurd hi.2 hother
    · intro hi
      exact (List.getElem?_append_left (List.getElem?_eq_some_iff.mp hi).1).trans hi

/-- What stays of an entry that moves. -/
def RootSlot.rest (held : RootSlot) : Nat × Nat := (held.generation, held.entry.lease)

/-- The last active slot takes the place of a removed one. -/
theorem Placed.swapRemove {slots left : Table RootSlot} {active : Buffer Nat} (h : Placed slots active.items)
    (hheld : slots.get slot = some held) (hleft : left.Valid)
    (hget : ∀ j, left.get j = if j = slot then none else slots.get j) :
    ∃ active' slots', active.swapRemove held.entry.activeIndex = some active' ∧
      Roots.renumber left active' held.entry.activeIndex = some slots' ∧ slots'.Valid ∧ Placed slots' active'.items ∧
      ∀ j, (slots'.get j).map RootSlot.rest = (left.get j).map RootSlot.rest := by
  set i := held.entry.activeIndex
  have hi : active.items[i]? = some slot := (h i slot).mpr ⟨held, hheld, rfl⟩
  obtain ⟨active', hrem, hlen, -, hits⟩ := Buffer.swapRemove_spec (List.getElem?_eq_some_iff.mp hi).1
  refine ⟨active', ?_⟩
  unfold Roots.renumber
  rw [hrem]
  -- The places of the entries that are left.
  have hplc {j other : Nat} : (∃ held, left.get other = some held ∧ held.entry.activeIndex = j) ↔
      active.items[j]? = some other ∧ j ≠ i := by
    rw [h, hget]
    by_cases hother : other = slot
    · subst hother
      rw [if_pos rfl]
      constructor
      · rintro ⟨_, hnone, -⟩
        cases hnone
      · rintro ⟨⟨held', hheld', rfl⟩, hne⟩
        rw [Option.some.inj (hheld'.symm.trans hheld)] at hne
        exact absurd rfl hne
    · rw [if_neg hother]
      refine ⟨fun hj => ⟨hj, ?_⟩, fun hj => hj.1⟩
      rintro rfl
      exact hother (Option.some.inj (((h i other).mpr hj).symm.trans hi))
  have hlast : i < active'.items.length ∨ i = active'.items.length := by
    have := (List.getElem?_eq_some_iff.mp hi).1
    omega
  rcases hlast with hlt | heq
  · obtain ⟨moved, hmov⟩ : ∃ moved, active.items[active'.items.length]? = some moved :=
      ⟨_, List.getElem?_eq_getElem (by omega)⟩
    have hplcd : active'.items[i]? = some moved := by rw [hits, if_pos hlt, if_pos rfl, hmov]
    obtain ⟨old, hold, hidx⟩ := hplc.mpr ⟨hmov, Ne.symm (Nat.ne_of_lt hlt)⟩
    obtain ⟨hvld, -, hmdf⟩ := Table.modify_spec hleft moved fun slot =>
      { slot with entry := { slot.entry with activeIndex := i } }
    rw [hplcd]
    dsimp only
    rw [hold] at hmdf ⊢
    refine ⟨_, rfl, rfl, hvld, fun j other => ?_, fun j => ?_⟩
    · rw [hmdf]
      by_cases hother : other = moved
      · subst hother
        rw [if_pos rfl]
        constructor
        · intro hj
          refine ⟨_, rfl, ?_⟩
          rw [hits] at hj
          split at hj
          · split at hj
            · rename_i heq
              exact heq.symm
            · rename_i hlt' hne
              obtain ⟨held', hheld', rfl⟩ := hplc.mpr ⟨hj, hne⟩
              rw [Option.some.inj (hheld'.symm.trans hold), hidx] at hlt'
              exact absurd hlt' (Nat.lt_irrefl _)
          · cases hj
        · rintro ⟨_, hheld', rfl⟩
          cases hheld'
          exact hplcd
      · rw [if_neg hother, hplc, hits]
        by_cases hji : j = i
        · subst hji
          rw [if_pos hlt, if_pos rfl, hmov]
          exact ⟨fun heq => absurd (Option.some.inj heq).symm hother, fun hne => absurd rfl hne.2⟩
        · rw [if_neg hji]
          constructor
          · intro hj
            split at hj
            · exact ⟨hj, hji⟩
            · cases hj
          · rintro ⟨hj, -⟩
            rw [if_pos]
            · exact hj
            · have hlt' := (List.getElem?_eq_some_iff.mp hj).1
              by_contra hge
              obtain rfl : j = active'.items.length := by omega
              exact hother (Option.some.inj (hj.symm.trans hmov))
    · rw [hmdf]
      split
      · rename_i heq
        rw [heq, hold]
        rfl
      · rfl
  · have hnone : active'.items[i]? = none := List.getElem?_eq_none (Nat.le_of_eq heq.symm)
    rw [hnone]
    refine ⟨left, rfl, rfl, hleft, fun j other => ?_, fun _ => rfl⟩
    rw [hplc, hits]
    constructor
    · intro hj
      split at hj
      · rename_i hlt
        rw [if_neg (by omega)] at hj
        exact ⟨hj, by omega⟩
      · cases hj
    · rintro ⟨hj, hne⟩
      have hlt' := (List.getElem?_eq_some_iff.mp hj).1
      rw [if_pos (by omega), if_neg hne]
      exact hj

/-! ## Steps that neither commit nor release -/

/-- What the invariant reads of an entry. -/
def RootSlot.key (held : RootSlot) : Nat × Nat × Nat := (held.generation, held.entry.activeIndex, held.entry.lease)

/-- What it reads of a lease, besides its handles. -/
def RootLease.key (lease : RootLease) : RootId × Bool := (lease.id, lease.armed)

/-- The same roots, with other targets and other room. -/
structure Roots.Same (r r' : Roots) : Prop where
  heap : r'.heap = r.heap
  connected : r'.released.connected = r.released.connected
  credits : r'.released.credits = r.released.credits
  pending : r'.released.pending.items = r.released.pending.items
  active : r'.active.items = r.active.items
  count : r'.count = r.count
  serial : r.serial ≤ r'.serial
  valid : r.slots.Valid → r'.slots.Valid
  get : r.slots.Valid → ∀ slot, (r'.slots.get slot).map RootSlot.key = (r.slots.get slot).map RootSlot.key
  room : r.released.credits ≤ r.released.pending.capacity → r.released.credits ≤ r'.released.pending.capacity

/-- Entries of one key. -/
theorem Roots.Same.find {r r' : Roots} (h : r.Same r') (hvld : r.slots.Valid)
    (hget : r'.slots.get slot = some held) : ∃ old, r.slots.get slot = some old ∧ old.key = held.key := by
  have hkey := h.get hvld slot
  rw [hget] at hkey
  exact Option.map_eq_some_iff.mp hkey.symm

theorem Roots.Same.keeps {r r' : Roots} (h : r.Same r') (hvld : r.slots.Valid)
    (hget : r.slots.get slot = some held) : ∃ new, r'.slots.get slot = some new ∧ new.key = held.key := by
  have hkey := h.get hvld slot
  rw [hget] at hkey
  exact Option.map_eq_some_iff.mp hkey

namespace Registry

/-- What a prepared root still needs. -/
structure Prepared (s : Registry) (address : Nat) (entry : RootEntry) : Prop where
  lease : ∃ lease, s.leases[address]? = some lease ∧ lease.armed = false ∧ lease.handles = .held 0 ∧
    s.roots.slots.Ready lease.id.slot
  address : entry.lease = address
  index : entry.activeIndex = s.roots.active.items.length
  active : s.roots.active.items.length < s.roots.active.capacity
  pending : s.roots.released.credits + 1 ≤ s.roots.released.pending.capacity
  bound : s.roots.released.credits + 1 < 2 ^ 64

structure Sound (s : Registry) : Prop where
  table : s.roots.slots.Valid
  connected : s.roots.released.connected = true
  /-- Identities are of this heap, and none is used twice. -/
  known : ∀ lease ∈ s.leases, lease.id.heap = s.roots.heap ∧ lease.id.generation ≤ s.roots.serial
  generations : (s.leases.map (·.id.generation)).Nodup
  placed : Placed s.roots.slots s.roots.active.items
  occupied : ∀ slot held, s.roots.slots.get slot = some held → ∃ lease, s.leases[held.entry.lease]? = some lease ∧
    lease.id = ⟨s.roots.heap, slot, held.generation⟩ ∧ lease.armed = true ∧ lease.id ∉ s.delivered
  held : ∀ (address : Nat) lease, s.leases[address]? = some lease → lease.armed = true → lease.id ∉ s.delivered →
    ∃ held, s.roots.slots.get lease.id.slot = some held ∧ held.generation = lease.id.generation ∧
      held.entry.lease = address
  count : s.roots.count = s.outstanding.card
  credits : s.roots.released.credits = s.outstanding.card
  bound : s.roots.released.credits < 2 ^ 64
  room : s.roots.released.credits ≤ s.roots.released.pending.capacity
  /-- Each root that lost its handles has one notice. -/
  notices : ∀ id, id ∈ s.roots.released.pending.items ++ s.releasing ++ s.delivered ↔
    ∃ lease ∈ s.leases, lease.id = id ∧ lease.armed = true ∧ lease.handles = .dropped
  once : (s.roots.released.pending.items ++ s.releasing ++ s.delivered).Nodup
  prepared : ∀ address entry, s.loan = .prepared address entry → s.Prepared address entry

variable {s : Registry}

theorem mem_outstanding : id ∈ s.outstanding ↔
    (∃ lease ∈ s.leases, lease.armed = true ∧ lease.id = id) ∧ id ∉ s.delivered := by
  simp [outstanding, and_assoc]

theorem sound_start (heap : Nat) : (start heap).Sound where
  table := Table.valid_empty
  connected := rfl
  known := nofun
  generations := .nil
  placed := fun i slot => by simp [start, Roots.new, Buffer.empty, Table.get_empty]
  occupied := fun slot held h => by
    rw [show (start heap).roots.slots.get slot = none from Table.get_empty slot] at h
    cases h
  held := fun address lease h => by cases h
  count := rfl
  credits := rfl
  bound := Nat.two_pow_pos 64
  room := Nat.le_refl 0
  notices := fun id => by simp [start, Roots.new, Buffer.empty, releasing]
  once := .nil
  prepared := nofun

/-- Leases of one generation are one. -/
theorem Sound.unique (h : s.Sound) {lease lease' : RootLease} (hmem : lease ∈ s.leases) (hmem' : lease' ∈ s.leases)
    (hid : lease.id.generation = lease'.id.generation) : lease = lease' :=
  inj_on_of_nodup_map h.generations hmem hmem' hid

/-- A notice that was not delivered is of an outstanding root. -/
theorem Sound.waiting (h : s.Sound) (hid : id ∈ s.roots.released.pending.items ++ s.releasing) :
    id ∈ s.outstanding := by
  obtain ⟨lease, hmem, heq, harmed, -⟩ := (h.notices id).mp (mem_append_left _ hid)
  exact mem_outstanding.mpr ⟨⟨lease, hmem, harmed, heq⟩, disjoint_of_nodup_append h.once hid⟩

/-- There are no more such notices than credits. -/
theorem Sound.length_le (h : s.Sound) {ids : List RootId} (hnd : ids.Nodup) (hsub : ∀ id ∈ ids, id ∈ s.outstanding) :
    ids.length ≤ s.roots.released.credits := by
  rw [h.credits, ← toFinset_card_of_nodup hnd]
  exact Finset.card_le_card fun id hid => hsub id (mem_toFinset.mp hid)

theorem Sound.same (h : s.Sound) (hsame : s.roots.Same roots)
    (hloan : ∀ address entry, s.loan ≠ .prepared address entry) : Sound { s with roots } where
  table := hsame.valid h.table
  connected := hsame.connected.trans h.connected
  known := fun lease hmem => by
    obtain ⟨hheap, hle⟩ := h.known lease hmem
    exact ⟨hheap.trans hsame.heap.symm, hle.trans hsame.serial⟩
  generations := h.generations
  placed := fun i slot => by
    rw [hsame.active, h.placed i slot]
    constructor
    · rintro ⟨held, hget, rfl⟩
      obtain ⟨new, hnew, hkey⟩ := hsame.keeps h.table hget
      exact ⟨new, hnew, congrArg (·.2.1) hkey⟩
    · rintro ⟨held, hget, rfl⟩
      obtain ⟨old, hold, hkey⟩ := hsame.find h.table hget
      exact ⟨old, hold, congrArg (·.2.1) hkey⟩
  occupied := fun slot held hget => by
    obtain ⟨old, hold, hkey⟩ := hsame.find h.table hget
    obtain ⟨lease, hlse, hid, harmed⟩ := h.occupied slot old hold
    obtain ⟨hgen, -, haddr⟩ : old.generation = held.generation ∧ _ ∧ old.entry.lease = held.entry.lease := by
      simpa [RootSlot.key] using hkey
    refine ⟨lease, haddr ▸ hlse, ?_, harmed⟩
    rw [hid, hgen, hsame.heap]
  held := fun address lease hlse harmed hout => by
    obtain ⟨held, hget, hgen, haddr⟩ := h.held address lease hlse harmed hout
    obtain ⟨new, hnew, hkey⟩ := hsame.keeps h.table hget
    exact ⟨new, hnew, (congrArg (·.1) hkey).trans hgen, (congrArg (·.2.2) hkey).trans haddr⟩
  count := hsame.count.trans h.count
  credits := hsame.credits.trans h.credits
  bound := hsame.credits.symm ▸ h.bound
  room := hsame.credits.trans_le (hsame.room h.room)
  notices := fun id => by
    show id ∈ roots.released.pending.items ++ s.releasing ++ s.delivered ↔ _
    rw [hsame.pending]
    exact h.notices id
  once := by
    show (roots.released.pending.items ++ s.releasing ++ s.delivered).Nodup
    rw [hsame.pending]
    exact h.once
  prepared := fun address entry hprep => absurd hprep (hloan address entry)

theorem outstanding_eq (s : Registry) : s.outstanding =
    (((s.leases.map RootLease.key).filter (·.2)).map (·.1)).toFinset \ s.delivered.toFinset := by
  rw [filter_map, map_map]
  rfl

/-- Handles come and go, and notices with them. -/
theorem Sound.relabel (h : s.Sound) {leases : List RootLease} {released : ReleasePort}
    (hkey : leases.map RootLease.key = s.leases.map RootLease.key)
    (hconn : released.connected = s.roots.released.connected)
    (hcredits : released.credits = s.roots.released.credits) (hroom : released.credits ≤ released.pending.capacity)
    (hnotices : ∀ id, id ∈ released.pending.items ++ releasing { s with loan } ++ s.delivered ↔
      ∃ lease ∈ leases, lease.id = id ∧ lease.armed = true ∧ lease.handles = .dropped)
    (honce : (released.pending.items ++ releasing { s with loan } ++ s.delivered).Nodup)
    (hprep : ∀ address entry, loan = .prepared address entry → s.loan = .prepared address entry ∧
      leases[address]? = s.leases[address]? ∧ released.pending.capacity = s.roots.released.pending.capacity) :
    Sound { s with roots := { s.roots with released }, leases, loan } := by
  have hget (address : Nat) : (leases[address]?).map RootLease.key = (s.leases[address]?).map RootLease.key := by
    rw [← getElem?_map, ← getElem?_map, hkey]
  have hout : outstanding { s with roots := { s.roots with released }, leases, loan } = s.outstanding := by
    rw [outstanding_eq, outstanding_eq]
    dsimp only
    rw [hkey]
  refine ⟨h.table, hconn.trans h.connected, fun lease hmem => ?_, ?_, h.placed, fun slot held hslot => ?_,
    fun address lease hlse harmed hdlvd => ?_, hout ▸ h.count, hout ▸ hcredits.trans h.credits,
    hcredits.symm ▸ h.bound, hroom, hnotices, honce, fun address entry hloan => ?_⟩
  · obtain ⟨old, hmem', hkey'⟩ := mem_map.mp (hkey ▸ mem_map_of_mem hmem)
    rw [← show old.id = lease.id from congrArg Prod.fst hkey']
    exact h.known old hmem'
  · have hmap : leases.map (·.id.generation) = s.leases.map (·.id.generation) := by
      have := congrArg (List.map fun key => key.1.generation) hkey
      rwa [map_map, map_map] at this
    exact hmap ▸ h.generations
  · obtain ⟨old, hlse, hid, harmed, hdlvd⟩ := h.occupied slot held hslot
    have hkey' := hget held.entry.lease
    rw [hlse] at hkey'
    obtain ⟨lease, hlse', heq⟩ := Option.map_eq_some_iff.mp hkey'
    have hid' : lease.id = old.id := congrArg Prod.fst heq
    exact ⟨lease, hlse', hid'.trans hid, (congrArg Prod.snd heq).trans harmed, hid' ▸ hdlvd⟩
  · have hkey' := hget address
    rw [hlse] at hkey'
    obtain ⟨old, hlse', heq⟩ := Option.map_eq_some_iff.mp hkey'.symm
    have hid' : old.id = lease.id := congrArg Prod.fst heq
    obtain ⟨held, hslot, hgen, haddr⟩ :=
      h.held address old hlse' ((congrArg Prod.snd heq).trans harmed) (hid' ▸ hdlvd)
    exact ⟨held, hid' ▸ hslot, hid' ▸ hgen, haddr⟩
  · obtain ⟨hloan', hsame, hcap⟩ := hprep address entry hloan
    obtain ⟨hlse, haddr, hidx, hactv, hpend, hbnd⟩ := h.prepared address entry hloan'
    refine ⟨hsame ▸ hlse, haddr, hidx, hactv, ?_, hcredits.symm ▸ hbnd⟩
    dsimp only
    rwa [hcredits, hcap]

/-- A change of the handles of a lease. -/
theorem getElem?_withHandles (s : Registry) (address other : Nat) (change : Handles → Handles) :
    (s.withHandles address change)[other]? = (s.leases[other]?).map fun lease =>
      if address = other then { lease with handles := change lease.handles } else lease :=
  getElem?_modify ..

theorem key_withHandles (s : Registry) (address : Nat) (change : Handles → Handles) :
    (s.withHandles address change).map RootLease.key = s.leases.map RootLease.key := by
  apply ext_getElem?
  intro k
  rw [getElem?_map, getElem?_map, getElem?_withHandles, Option.map_map]
  congr 1
  funext lease
  dsimp only [Function.comp_apply]
  split <;> rfl

variable {address : Nat} {entry : RootEntry}

/-- A prepared root keeps its lease from changes of others. -/
theorem withHandles_prepared (change : Handles → Handles) (hfree : s.isPrepared address = false)
    {other : Nat} (hloan : s.loan = .prepared other entry) :
    (s.withHandles address change)[other]? = s.leases[other]? := by
  have hne : address ≠ other := by
    rintro rfl
    simp [isPrepared, hloan] at hfree
  rw [getElem?_withHandles]
  simp [hne]

/-- The leases that have a notice, where no lease was ended. -/
theorem Sound.noticed (h : s.Sound)
    (hloan : releasing { s with loan } = s.releasing)
    (hchg : ∀ lease, s.leases[address]? = some lease → lease.armed = true →
      (change lease.handles = .dropped ↔ lease.handles = .dropped)) (id : RootId) :
    id ∈ s.roots.released.pending.items ++ releasing { s with loan } ++ s.delivered ↔
      ∃ lease ∈ s.withHandles address change, lease.id = id ∧ lease.armed = true ∧ lease.handles = .dropped := by
  rw [hloan, h.notices id]
  simp only [mem_iff_getElem?, getElem?_withHandles, Option.map_eq_some_iff]
  constructor
  · rintro ⟨lease, ⟨k, hk⟩, hid, harmed, hhnd⟩
    refine ⟨_, ⟨k, lease, hk, rfl⟩, ?_⟩
    split
    · rename_i heq
      subst heq
      exact ⟨hid, harmed, (hchg lease hk harmed).mpr hhnd⟩
    · exact ⟨hid, harmed, hhnd⟩
  · rintro ⟨_, ⟨k, lease, hk, rfl⟩, hntc⟩
    refine ⟨lease, ⟨k, hk⟩, ?_⟩
    split at hntc
    · rename_i heq
      subst heq
      exact ⟨hntc.1, hntc.2.1, (hchg lease hk hntc.2.1).mp hntc.2.2⟩
    · exact hntc

/-- A change of the handles of a lease that neither revives nor ends it. -/
theorem Sound.withHandles (h : s.Sound)
    (hchg : ∀ handles, change handles = .dropped ↔ handles = .dropped) (hfree : s.isPrepared address = false) :
    Sound { s with leases := s.withHandles address change } :=
  h.relabel (key_withHandles s address change) rfl rfl h.room (h.noticed rfl fun lease _ _ => hchg lease.handles)
    h.once fun _ _ hloan => ⟨hloan, withHandles_prepared change hfree hloan, rfl⟩

theorem Sound.cloneHandle (h : s.Sound) (hfree : s.isPrepared address = false) :
    Sound { s with leases := s.withHandles address .clone } := by
  refine h.withHandles (fun handles => ?_) hfree
  cases handles <;> simp [Handles.clone]

theorem Sound.dropHandle (h : s.Sound) (hfree : s.isPrepared address = false) :
    Sound { s with leases := s.withHandles address .drop } := by
  refine h.withHandles (fun handles => ?_) hfree
  rcases handles with (_ | _) | _ | _ <;> simp [Handles.drop]

theorem Sound.abandon (h : s.Sound) (hloan : s.loan = .prepared address entry) :
    Sound { s with leases := s.withHandles address .drop, loan := .free } := by
  obtain ⟨⟨lease, hlse, harmed, -⟩, -⟩ := h.prepared address entry hloan
  have hrel : releasing { s with loan := .free } = s.releasing := by simp [releasing, hloan]
  refine h.relabel (key_withHandles s address .drop) rfl rfl h.room (h.noticed hrel fun other hother harmed' => ?_)
    (hrel.symm ▸ h.once) nofun
  cases hlse.symm.trans hother
  exact absurd harmed' (by simp [harmed])

variable {lease : RootLease}

/-- The destructor of a lease finds room for its notice. -/
theorem Sound.dropLease (h : s.Sound) (hlse : s.leases[address]? = some lease)
    (hhnd : lease.handles = .dropping) : ∃ released, lease.drop s.roots.released = some released ∧
      Sound { s with
        roots := { s.roots with released }, leases := s.withHandles address fun _ => .dropped } := by
  have hmem := mem_of_getElem? hlse
  have hprep : ∀ other entry, s.loan = .prepared other entry →
      (s.withHandles address fun _ => .dropped)[other]? = s.leases[other]? := by
    intro other entry hloan
    refine withHandles_prepared _ ?_ hloan
    obtain ⟨⟨lease', hlse', -, hheld, -⟩, -⟩ := h.prepared other entry hloan
    by_contra hfree
    obtain rfl : other = address := by simpa [isPrepared, hloan] using hfree
    rw [Option.some.inj (hlse.symm.trans hlse'), hheld] at hhnd
    cases hhnd
  unfold RootLease.drop
  cases harmed : lease.armed with
  | false =>
    refine ⟨_, if_neg (by simp), ?_⟩
    refine h.relabel (key_withHandles s address _) rfl rfl h.room (h.noticed rfl fun other hother harmed' => ?_) h.once
      fun other entry hloan => ⟨hloan, hprep other entry hloan, rfl⟩
    rw [Option.some.inj (hother.symm.trans hlse), harmed] at harmed'
    cases harmed'
  | true =>
    -- The lease has no notice yet, so there is a credit that none of the waiting ones has.
    have hnone : lease.id ∉ s.roots.released.pending.items ++ s.releasing ++ s.delivered := by
      intro hid
      obtain ⟨other, hother, hid', -, hdropped⟩ := (h.notices lease.id).mp hid
      obtain rfl := h.unique hother hmem (by rw [hid'])
      rw [hhnd] at hdropped
      cases hdropped
    have hout : lease.id ∈ s.outstanding := by
      refine mem_outstanding.mpr ⟨⟨lease, hmem, harmed, rfl⟩, fun hid => hnone (mem_append_right _ hid)⟩
    have hnd : (s.roots.released.pending.items ++ [lease.id]).Nodup := by
      refine nodup_append.mpr ⟨h.once.of_append_left.of_append_left, nodup_singleton _, ?_⟩
      rintro id hid _ hid' rfl
      rw [mem_singleton] at hid'
      exact hnone (mem_append_left _ (mem_append_left _ (hid' ▸ hid)))
    have hle := h.length_le hnd fun id hid => by
      rcases mem_append.mp hid with hid | hid
      · exact h.waiting (mem_append_left _ hid)
      · rw [mem_singleton.mp hid]
        exact hout
    rw [length_append, length_singleton] at hle
    obtain ⟨pending, hpush, hits, hcap⟩ := Buffer.push_spec (lt_of_lt_of_le hle h.room) lease.id
    refine ⟨{ s.roots.released with pending }, ?_, ?_⟩
    · rw [if_pos ⟨rfl, h.connected⟩, hpush]
      rfl
    · have hperm : (pending.items ++ s.releasing ++ s.delivered).Perm
          (lease.id :: (s.roots.released.pending.items ++ s.releasing ++ s.delivered)) := by
        rw [hits, append_assoc, append_assoc, append_assoc, singleton_append]
        exact perm_middle
      refine h.relabel (key_withHandles s address _) rfl rfl (hcap.symm ▸ h.room) (fun id => ?_)
        (hperm.nodup_iff.mpr (nodup_cons.mpr ⟨hnone, h.once⟩))
        fun other entry hloan => ⟨hloan, hprep other entry hloan, hcap⟩
      rw [hperm.mem_iff, mem_cons, h.notices id]
      simp only [mem_iff_getElem?, getElem?_withHandles, Option.map_eq_some_iff]
      constructor
      · rintro (rfl | ⟨other, ⟨k, hk⟩, hid, harmed', hdropped⟩)
        · exact ⟨_, ⟨address, lease, hlse, rfl⟩, by simp, by simp [harmed], by simp⟩
        · refine ⟨_, ⟨k, other, hk, rfl⟩, ?_⟩
          split
          · exact ⟨hid, harmed', rfl⟩
          · exact ⟨hid, harmed', hdropped⟩
      · rintro ⟨_, ⟨k, other, hk, rfl⟩, hntc⟩
        split at hntc
        · rename_i heq
          subst heq
          cases hlse.symm.trans hk
          exact .inl hntc.1.symm
        · exact .inr ⟨other, ⟨k, hk⟩, hntc⟩

/-- A notice is taken out of the queue. -/
theorem Sound.popRelease (h : s.Sound) (hloan : s.loan = .free)
    (hpop : s.roots.popRelease = some (id, roots)) : Sound { s with roots, loan := .releasing id } := by
  obtain ⟨⟨id', pending⟩, hfront, heq⟩ := Option.map_eq_some_iff.mp hpop
  obtain ⟨rfl, rfl⟩ := Prod.mk.inj heq
  obtain ⟨hits, hcap⟩ := Buffer.popFront_spec hfront
  have hperm : (pending.items ++ [id'] ++ s.delivered).Perm
      (s.roots.released.pending.items ++ s.releasing ++ s.delivered) := by
    rw [show s.releasing = [] by simp [releasing, hloan], hits, append_nil]
    exact (perm_append_singleton _ _).append_right _
  refine h.relabel rfl rfl rfl (hcap.symm ▸ h.room) (fun id => ?_) (hperm.nodup_iff.mpr h.once) nofun
  exact hperm.mem_iff.trans (h.notices id)

/-! ## Commits and releases -/

/-- The lease in a place is armed. -/
theorem getElem?_arm (leases : List RootLease) (address other : Nat) :
    (leases.modify address fun lease => { lease with armed := true })[other]? = (leases[other]?).map fun lease =>
      if address = other then { lease with armed := true } else lease :=
  getElem?_modify ..

/-- An unarmed lease has no notice. -/
theorem Sound.unarmed (h : s.Sound) (hmem : lease ∈ s.leases) (harmed : lease.armed = false) :
    lease.id ∉ s.roots.released.pending.items ++ s.releasing ++ s.delivered := by
  intro hid
  obtain ⟨other, hother, hid', harmed', -⟩ := (h.notices lease.id).mp hid
  rw [h.unique hother hmem (by rw [hid']), harmed] at harmed'
  cases harmed'

/-- A commit fills the prepared slot. -/
theorem Sound.commit (h : s.Sound) (hloan : s.loan = .prepared address entry)
    (hlse : s.leases[address]? = some lease) (target : Option Nat) :
    ∃ roots, s.roots.commit lease.id entry target = some roots ∧ Sound { s with
      roots, leases := s.leases.modify address fun lease => { lease with armed := true }, loan := .free } := by
  obtain ⟨⟨lease', hlse', harmed, hheld, hrdy⟩, haddr, hidx, hactv, hroom, hbnd⟩ :=
    h.prepared address entry hloan
  cases hlse.symm.trans hlse'
  have hmem := mem_of_getElem? hlse
  have hfree := hrdy.free h.table
  have hunarmed := h.unarmed hmem harmed
  have hdlvd : lease.id ∉ s.delivered := fun hid => hunarmed (mem_append_right _ hid)
  obtain ⟨active, hpush, hits, -⟩ := Buffer.push_spec hactv lease.id.slot
  let held : RootSlot :=
    ⟨lease.id.generation, { entry with targets := entry.targets.modifyHead fun _ => target }⟩
  obtain ⟨slots, hins, htab, hget, -⟩ := Table.insert_spec h.table hrdy held
  let roots : Roots := { s.roots with
    active, slots
    count := s.roots.count + 1
    released := { s.roots.released with credits := s.roots.released.credits + 1 } }
  let s' : Registry := { s with
    roots, leases := s.leases.modify address fun lease => { lease with armed := true }, loan := .free }
  have harm (other : Nat) : s'.leases[other]? = (s.leases[other]?).map fun lease =>
      if address = other then { lease with armed := true } else lease := getElem?_arm s.leases address other
  have hself : s'.leases[address]? = some { lease with armed := true } := by
    rw [harm, hlse]
    simp
  have hrel : s'.releasing = s.releasing := by simp [releasing, s', hloan]
  -- Where a lease of the new registry comes from.
  have hfrom {lease' : RootLease} (hmem' : lease' ∈ s'.leases) : ∃ old ∈ s.leases, old.id = lease'.id ∧
      old.handles = lease'.handles ∧ (lease' = { lease with armed := true } ∨ old = lease') := by
    obtain ⟨k, hk⟩ := mem_iff_getElem?.mp hmem'
    rw [harm] at hk
    obtain ⟨old, hold, rfl⟩ := Option.map_eq_some_iff.mp hk
    refine ⟨old, mem_of_getElem? hold, ?_⟩
    split
    · rename_i heq
      subst heq
      rw [Option.some.inj (hlse.symm.trans hold)]
      exact ⟨rfl, rfl, .inl rfl⟩
    · exact ⟨rfl, rfl, .inr rfl⟩
  have hother {k : Nat} {lease' : RootLease} (hk : s.leases[k]? = some lease') (harmed' : lease'.armed = true) :
      address ≠ k ∧ s'.leases[k]? = some lease' := by
    have hne : address ≠ k := by
      rintro rfl
      rw [Option.some.inj (hk.symm.trans hlse), harmed] at harmed'
      cases harmed'
    rw [harm, hk]
    simp [hne]
  have hout : s'.outstanding = insert lease.id s.outstanding := by
    ext id
    rw [Finset.mem_insert, mem_outstanding, mem_outstanding]
    constructor
    · rintro ⟨⟨lease', hmem', harmed', rfl⟩, hid⟩
      obtain ⟨old, hold, -, -, rfl | rfl⟩ := hfrom hmem'
      · exact .inl rfl
      · exact .inr ⟨⟨old, hold, harmed', rfl⟩, hid⟩
    · rintro (rfl | ⟨⟨lease', hmem', harmed', rfl⟩, hid⟩)
      · exact ⟨⟨_, mem_of_getElem? hself, rfl, rfl⟩, hdlvd⟩
      · obtain ⟨k, hk⟩ := mem_iff_getElem?.mp hmem'
        exact ⟨⟨lease', mem_of_getElem? (hother hk harmed').2, harmed', rfl⟩, hid⟩
  have hnew : lease.id ∉ s.outstanding := by
    intro hid
    obtain ⟨⟨lease', hmem', harmed', hid'⟩, -⟩ := mem_outstanding.mp hid
    rw [h.unique hmem' hmem (by rw [hid']), harmed] at harmed'
    cases harmed'
  have hcard : s'.outstanding.card = s.outstanding.card + 1 := by rw [hout, Finset.card_insert_of_notMem hnew]
  refine ⟨roots, by simp [Roots.commit, hpush, hins, held, roots], ?_⟩
  change Sound s'
  refine ⟨htab, h.connected, fun lease' hmem' => ?_, ?_, fun i slot => ?_, fun slot held' hslot => ?_,
    fun k lease' hk harmed' hid => ?_, ?_, ?_, hbnd, hroom, fun id => ?_, ?_, nofun⟩
  · obtain ⟨old, hold, hid, -⟩ := hfrom hmem'
    rw [← hid]
    exact h.known old hold
  · have hmap : s'.leases.map (·.id.generation) = s.leases.map (·.id.generation) := by
      apply ext_getElem?
      intro k
      rw [getElem?_map, getElem?_map, harm, Option.map_map]
      congr 1
      funext lease
      dsimp only [Function.comp_apply]
      split <;> rfl
    exact hmap ▸ h.generations
  · change active.items[i]? = some slot ↔ ∃ held, slots.get slot = some held ∧ held.entry.activeIndex = i
    rw [hits]
    exact h.placed.push hfree hidx hget i slot
  · change slots.get slot = some held' at hslot
    rw [hget] at hslot
    split at hslot
    · rename_i heq
      subst heq
      cases hslot
      refine ⟨{ lease with armed := true }, ?_, ?_, rfl, hdlvd⟩
      · rw [show held.entry.lease = address from haddr]
        exact hself
      · rw [show roots.heap = lease.id.heap from (h.known lease hmem).1.symm]
    · obtain ⟨lease', hlse', hid, harmed', hid'⟩ := h.occupied slot held' hslot
      exact ⟨lease', (hother hlse' harmed').2, hid, harmed', hid'⟩
  · change ∃ held, slots.get lease'.id.slot = some held ∧ _
    rw [harm] at hk
    obtain ⟨old, hold, rfl⟩ := Option.map_eq_some_iff.mp hk
    split at harmed'
    · rename_i heq
      subst heq
      cases hlse.symm.trans hold
      rw [if_pos rfl] at hid ⊢
      exact ⟨held, by rw [hget, if_pos rfl], rfl, haddr⟩
    · rename_i hne
      rw [if_neg hne] at hid ⊢
      obtain ⟨held', hslot, hrest⟩ := h.held k old hold harmed' hid
      refine ⟨held', ?_, hrest⟩
      rw [hget, if_neg]
      · exact hslot
      · intro heq
        rw [heq, hfree] at hslot
        cases hslot
  · rw [hcard, ← h.count]
  · rw [hcard, ← h.credits]
  · rw [show s'.roots.released.pending.items ++ s'.releasing ++ s'.delivered =
      s.roots.released.pending.items ++ s.releasing ++ s.delivered by rw [hrel], h.notices id]
    constructor
    · rintro ⟨lease', hmem', hid, harmed', hdropped⟩
      obtain ⟨k, hk⟩ := mem_iff_getElem?.mp hmem'
      exact ⟨lease', mem_of_getElem? (hother hk harmed').2, hid, harmed', hdropped⟩
    · rintro ⟨lease', hmem', hid, harmed', hdropped⟩
      obtain ⟨old, hold, hid', hhnd, rfl | rfl⟩ := hfrom hmem'
      · rw [show ({ lease with armed := true } : RootLease).handles = .held 0 from hheld] at hdropped
        cases hdropped
      · exact ⟨old, hold, hid, harmed', hdropped⟩
  · rw [show s'.roots.released.pending.items ++ s'.releasing ++ s'.delivered =
      s.roots.released.pending.items ++ s.releasing ++ s.delivered by rw [hrel]]
    exact h.once

/-- A notice releases its root. -/
theorem Sound.release (h : s.Sound) (hloan : s.loan = .releasing id) :
    ∃ entry roots, s.roots.release s.leases id = some (entry, roots) ∧
      roots.released.pending = s.roots.released.pending ∧
      Sound { s with roots, loan := .free, delivered := s.delivered ++ [id] } := by
  have hrel : s.releasing = [id] := by simp [releasing, hloan]
  have hwait : id ∈ s.roots.released.pending.items ++ s.releasing := by
    rw [hrel]
    exact mem_append_right _ (mem_singleton_self id)
  have hout := h.waiting hwait
  obtain ⟨lease, hmem, rfl, harmed, hdropped⟩ := (h.notices id).mp (mem_append_left _ hwait)
  obtain ⟨address, hlse⟩ := mem_iff_getElem?.mp hmem
  obtain ⟨held, hheld, hgen, haddr⟩ := h.held address lease hlse harmed (mem_outstanding.mp hout).2
  obtain ⟨left, hrem, hleft, hget, -⟩ := Table.remove_spec h.table lease.id.slot
  obtain ⟨active, slots, hswap, hmov, htab, hplcd, hrest⟩ := h.placed.swapRemove hheld hleft hget
  have hcard : 0 < s.outstanding.card := Finset.card_pos.mpr ⟨_, hout⟩
  let roots : Roots := { s.roots with
    active, slots
    count := s.roots.count - 1
    released := { s.roots.released with credits := s.roots.released.credits - 1 } }
  let s' : Registry := { s with roots, loan := .free, delivered := s.delivered ++ [lease.id] }
  have hout' : s'.outstanding = s.outstanding.erase lease.id := by
    ext id
    simp only [s', Finset.mem_erase, mem_outstanding, mem_append, mem_singleton, not_or]
    tauto
  have hcard' : s'.outstanding.card = s.outstanding.card - 1 := by rw [hout', Finset.card_erase_of_mem hout]
  have hperm : (s.roots.released.pending.items ++ [] ++ (s.delivered ++ [lease.id])).Perm
      (s.roots.released.pending.items ++ s.releasing ++ s.delivered) := by
    rw [hrel, append_nil, append_assoc]
    exact (perm_append_comm).append_left _
  -- The entries that stay, and what they were.
  have hstays {slot : Nat} {new : RootSlot} (hnew : slots.get slot = some new) : slot ≠ lease.id.slot ∧
      ∃ old, s.roots.slots.get slot = some old ∧ old.rest = new.rest := by
    have hkey := hrest slot
    rw [hnew] at hkey
    obtain ⟨old, hold, heq⟩ := Option.map_eq_some_iff.mp hkey.symm
    rw [hget] at hold
    split at hold
    · cases hold
    · rename_i hne
      exact ⟨hne, old, hold, heq⟩
  refine ⟨held.entry, roots, ?_, rfl, ?_⟩
  · unfold Roots.release
    rw [hrem, hheld]
    simp only [hgen, haddr, hlse, hdropped, hswap, hmov, roots, ne_eq, not_true_eq_false, if_false,
      Handles.strongCount, Option.pure_def, Option.bind_eq_bind, Option.bind_some, h.count, h.credits, or_self,
      Nat.ne_of_gt hcard]
  · change Sound s'
    refine ⟨htab, h.connected, h.known, h.generations, hplcd, fun slot new hnew => ?_,
      fun k lease' hk harmed' hid => ?_, ?_, ?_, ?_, ?_, fun id => ?_, ?_, nofun⟩
    · obtain ⟨hne, old, hold, heq⟩ := hstays hnew
      obtain ⟨lease', hlse', hid, harmed', hdlvd⟩ := h.occupied slot old hold
      obtain ⟨hgen', haddr'⟩ := Prod.mk.inj heq
      refine ⟨lease', haddr' ▸ hlse', hgen' ▸ hid, harmed', ?_⟩
      rw [mem_append, mem_singleton, not_or]
      refine ⟨hdlvd, fun hsame => hne ?_⟩
      rw [← hsame, hid]
    · rw [mem_append, mem_singleton, not_or] at hid
      obtain ⟨old, hold, hgen', haddr'⟩ := h.held k lease' hk harmed' hid.1
      have hne : lease'.id.slot ≠ lease.id.slot := by
        intro hslot
        rw [hslot, hheld] at hold
        cases hold
        exact hid.2 (by rw [h.unique (mem_of_getElem? hk) hmem (hgen'.symm.trans hgen)])
      have hkey := hrest lease'.id.slot
      rw [hget, if_neg hne, hold] at hkey
      obtain ⟨new, hnew, heq⟩ := Option.map_eq_some_iff.mp hkey
      obtain ⟨hgen'', haddr''⟩ := Prod.mk.inj heq
      exact ⟨new, hnew, hgen''.trans hgen', haddr''.trans haddr'⟩
    · rw [hcard', ← h.count]
    · rw [hcard', ← h.credits]
    · exact lt_of_le_of_lt (Nat.sub_le _ _) h.bound
    · exact (Nat.sub_le _ _).trans h.room
    · exact hperm.mem_iff.trans (h.notices id)
    · exact hperm.nodup_iff.mpr h.once

/-! ## Preparations, replacements and trims -/

theorem same_refl : r.Same r :=
  ⟨rfl, rfl, rfl, rfl, rfl, rfl, Nat.le_refl _, id, fun _ _ => rfl, id⟩

/-- What a successful preparation leaves for the commit. -/
structure Fresh (r r' : Roots) (address : Nat) (lease : RootLease) (entry : RootEntry) : Prop where
  id : lease.id.heap = r.heap ∧ lease.id.generation = r.serial + 1 ∧ r'.serial = r.serial + 1
  unused : lease.armed = false ∧ lease.handles = .held 0
  ready : r'.slots.Ready lease.id.slot
  address : entry.lease = address
  index : entry.activeIndex = r'.active.items.length
  active : r'.active.items.length < r'.active.capacity
  pending : r.released.credits + 1 ≤ r'.released.pending.capacity
  bound : r.released.credits + 1 < 2 ^ 64

/-- A preparation, whatever the allocator answers. -/
theorem prepare_spec (hvld : r.slots.Valid) (answers : Reservations) (address count : Nat)
    (typed : Option Nat) (limit : Nat) :
    r.Same (r.prepare answers address count typed limit).2 ∧
      ∀ lease entry, (r.prepare answers address count typed limit).1 = .ok (lease, entry) →
        Fresh r (r.prepare answers address count typed limit).2 address lease entry := by
  unfold Roots.prepare
  split
  · exact ⟨same_refl r, nofun⟩
  cases hactv : r.active.reserve answers.active 1 with
  | none => exact ⟨same_refl r, nofun⟩
  | some active =>
    obtain ⟨hits, hcap, hroom⟩ := Buffer.reserve_spec hactv
    have hfst : r.Same { r with active } :=
      ⟨rfl, rfl, rfl, rfl, hits, rfl, Nat.le_refl _, id, fun _ _ => rfl, id⟩
    dsimp only
    split
    · exact ⟨hfst, nofun⟩
    have hprep := Table.prepare_spec answers.slots hvld
    generalize r.slots.prepare answers.slots = prepared at hprep
    obtain ⟨result, slots⟩ := prepared
    have hsnd : r.Same { r with active, slots } :=
      ⟨rfl, rfl, rfl, rfl, hits, rfl, Nat.le_refl _, fun _ => hprep.valid,
        fun _ slot => congrArg _ (hprep.get slot), id⟩
    cases result with
    | error e => exact ⟨hsnd, nofun⟩
    | ok slot =>
      dsimp only
      split
      · exact ⟨hsnd, nofun⟩
      have hthird : r.Same { r with active, slots, serial := r.serial + 1 } :=
        { hsnd with serial := Nat.le_succ _ }
      split
      · exact ⟨hthird, nofun⟩
      rename_i hbnd
      cases hpend : r.released.pending.reserve answers.pending
        (r.released.credits + 1 - r.released.pending.items.length) with
      | none => exact ⟨hthird, nofun⟩
      | some pending =>
        obtain ⟨hqueue, hgrown, hextra⟩ := Buffer.reserve_spec hpend
        refine ⟨{ hthird with pending := hqueue, room := fun h => h.trans hgrown }, ?_⟩
        rintro lease entry hok
        cases hok
        refine ⟨⟨rfl, rfl, rfl⟩, ⟨rfl, rfl⟩, (hprep.ok slot rfl).1, rfl, rfl, ?_, ?_, by omega⟩
        · dsimp only
          rw [hits]
          exact hroom
        · dsimp only
          omega

/-- A lease with a new generation. -/
theorem Sound.add (h : s.Sound) (hloan : s.loan = .free) (hsame : s.roots.Same roots)
    (hfr : Fresh s.roots roots s.leases.length lease entry) :
    Sound { s with roots, leases := s.leases ++ [lease], loan := .prepared s.leases.length entry } := by
  have hs := h.same hsame fun _ _ => by rw [hloan]; nofun
  obtain ⟨harmed, hhnd⟩ := hfr.unused
  have hunarmed {other : RootLease} (hmem : other ∈ s.leases ++ [lease]) (harmed' : other.armed = true) :
      other ∈ s.leases := by
    rcases List.mem_append.mp hmem with hmem | hmem
    · exact hmem
    · rw [List.mem_singleton.mp hmem, harmed] at harmed'
      cases harmed'
  have hget {address : Nat} {other : RootLease} (hother : s.leases[address]? = some other) :
      (s.leases ++ [lease])[address]? = some other :=
    (List.getElem?_append_left (List.getElem?_eq_some_iff.mp hother).1).trans hother
  let s' : Registry := { s with roots, leases := s.leases ++ [lease], loan := .prepared s.leases.length entry }
  have hout : s'.outstanding = s.outstanding := by
    unfold outstanding
    simp [s', List.filter_append, harmed]
  have hrel : s'.releasing = s.releasing := by simp [releasing, s', hloan]
  refine ⟨hs.table, hs.connected, fun other hmem => ?_, ?_, hs.placed, fun slot held hslot => ?_,
    fun address other hother harmed' hid => ?_, hout ▸ hs.count, hout ▸ hs.credits, hs.bound, hs.room, fun id =>
      ?_, ?_, ?_⟩
  · rcases List.mem_append.mp hmem with hmem | hmem
    · exact hs.known other hmem
    · rw [List.mem_singleton.mp hmem]
      exact ⟨hfr.id.1.trans hsame.heap.symm, Nat.le_of_eq (hfr.id.2.1.trans hfr.id.2.2.symm)⟩
  · rw [List.map_append, List.nodup_append]
    refine ⟨h.generations, List.nodup_singleton _, ?_⟩
    rintro generation hgen _ hnew rfl
    obtain ⟨other, hmem, rfl⟩ := List.mem_map.mp hgen
    have hle := (h.known other hmem).2
    rw [List.map_singleton, List.mem_singleton, hfr.id.2.1] at hnew
    omega
  · obtain ⟨other, hother, hrest⟩ := hs.occupied slot held hslot
    exact ⟨other, hget hother, hrest⟩
  · rcases getElem?_concat_cases hother with hother | ⟨-, rfl⟩
    · exact hs.held address other hother harmed' hid
    · rw [harmed] at harmed'
      cases harmed'
  · rw [hrel]
    refine (hs.notices id).trans ⟨?_, ?_⟩
    · rintro ⟨other, hmem, hrest⟩
      exact ⟨other, List.mem_append_left _ hmem, hrest⟩
    · rintro ⟨other, hmem, hid, harmed', hdropped⟩
      exact ⟨other, hunarmed hmem harmed', hid, harmed', hdropped⟩
  · rw [hrel]
    exact hs.once
  · intro address entry' hprep
    obtain ⟨rfl, rfl⟩ := Loan.prepared.inj hprep
    refine ⟨⟨lease, List.getElem?_concat_length, harmed, hhnd, hfr.ready⟩, hfr.address, hfr.index,
      hfr.active, ?_, ?_⟩
    · exact (congrArg (· + 1) hsame.credits).trans_le hfr.pending
    · exact (congrArg (· + 1) hsame.credits).trans_lt hfr.bound

/-- A replacement changes targets only. -/
theorem replaceWith_spec (address : Nat) (lease : RootLease) (index : Nat)
    (target : Except GcError (Option Nat)) : r.Same (r.replaceWith address lease index target).2 := by
  unfold Roots.replaceWith
  split
  · exact same_refl r
  split
  · exact same_refl r
  split
  · exact same_refl r
  rename_i target
  have hmdf (hvld : r.slots.Valid) := Table.modify_spec hvld lease.id.slot fun slot =>
    { slot with entry := { slot.entry with targets := slot.entry.targets.set index target } }
  refine ⟨rfl, rfl, rfl, rfl, rfl, rfl, Nat.le_refl _, fun hvld => (hmdf hvld).1, fun hvld slot => ?_, id⟩
  dsimp only
  rw [(hmdf hvld).2.2]
  split
  · rename_i heq
    rw [heq, Option.map_map]
    rfl
  · rfl

theorem le_of_shrinkTarget {capacity needed target : Nat} (hbnd : needed < 2 ^ 64)
    (h : shrinkTarget capacity needed = some target) : needed ≤ target := by
  unfold shrinkTarget at h
  split at h
  · omega
  · dsimp only at h
    split at h
    · cases h
      omega
    · cases h

@[simp] theorem shrinkVec_items {α : Type} (buffer : Buffer α) (needed : Nat) :
    (shrinkVec buffer needed).items = buffer.items := by
  unfold shrinkVec
  split
  · exact Buffer.shrinkTo_items _ _
  · rfl

/-- A trim leaves room for a notice of every credit. -/
theorem trim_spec (hbnd : r.released.credits < 2 ^ 64) : r.Same r.trim := by
  unfold Roots.trim
  dsimp only
  cases htgt : shrinkTarget r.released.pending.capacity r.released.credits with
  | none =>
    exact ⟨rfl, rfl, rfl, rfl, shrinkVec_items _ _, rfl, Nat.le_refl _, fun hvld => (Table.trim_spec hvld).1,
      fun hvld slot => congrArg _ ((Table.trim_spec hvld).2.1 slot), id⟩
  | some target =>
    exact ⟨rfl, rfl, rfl, Buffer.shrinkTo_items _ _, shrinkVec_items _ _, rfl, Nat.le_refl _,
      fun hvld => (Table.trim_spec hvld).1, fun hvld slot => congrArg _ ((Table.trim_spec hvld).2.1 slot),
      fun h => Buffer.le_shrinkTo h (le_of_shrinkTarget hbnd htgt)⟩

/-! ## Runs -/

theorem Sound.step (h : s.Sound) (what : Step) : ∃ s', s.step what = some s' ∧ s'.Sound := by
  unfold Registry.step
  split
  · rename_i answers count typed limit hloan
    obtain ⟨hsame, hfr⟩ := prepare_spec s.roots h.table answers s.leases.length count typed limit
    split
    · rename_i lease entry roots hprepare
      rw [hprepare] at hsame hfr
      exact ⟨_, rfl, h.add hloan hsame (hfr lease entry rfl)⟩
    · rename_i roots hprepare
      rw [hprepare] at hsame
      exact ⟨_, rfl, h.same hsame fun _ _ => by rw [hloan]; nofun⟩
  · rename_i target address entry hloan
    obtain ⟨⟨lease, hlse, -⟩, -⟩ := h.prepared address entry hloan
    obtain ⟨roots, hcommit, hsound⟩ := h.commit hloan hlse target
    exact ⟨_, by simp [hlse, hcommit], hsound⟩
  · rename_i address entry hloan
    exact ⟨_, rfl, h.abandon hloan⟩
  · rename_i address index target hloan
    split
    · exact ⟨_, rfl, h.same (replaceWith_spec _ _ _ _ _) fun _ _ => by rw [hloan]; nofun⟩
    · exact ⟨s, rfl, h⟩
  · rename_i hloan
    split
    · rename_i hpop
      exact ⟨_, rfl, h.popRelease hloan hpop⟩
    · exact ⟨s, rfl, h⟩
  · rename_i id hloan
    obtain ⟨entry, roots, hrls, -, hsound⟩ := h.release hloan
    exact ⟨_, by simp [hrls], hsound⟩
  · rename_i hloan
    exact ⟨_, rfl, h.same (trim_spec _ h.bound) fun _ _ => by rw [hloan]; nofun⟩
  · split
    · exact ⟨s, rfl, h⟩
    · rename_i hfree
      exact ⟨_, rfl, h.cloneHandle (by simpa using hfree)⟩
  · split
    · exact ⟨s, rfl, h⟩
    · rename_i hfree
      exact ⟨_, rfl, h.dropHandle (by simpa using hfree)⟩
  · split
    · rename_i address lease hlse
      split
      · rename_i hdropping
        obtain ⟨released, hdrop, hsound⟩ := h.dropLease hlse hdropping
        rw [hdrop]
        exact ⟨_, rfl, hsound⟩
      · exact ⟨s, rfl, h⟩
    · exact ⟨s, rfl, h⟩
  · exact ⟨s, rfl, h⟩

theorem Sound.run : ∀ {s : Registry}, s.Sound → ∃ s', s.run steps = some s' ∧ s'.Sound := by
  induction steps with
  | nil => exact fun h => ⟨_, rfl, h⟩
  | cons what steps ih =>
    intro s h
    obtain ⟨next, hstep, hnext⟩ := h.step what
    obtain ⟨s', hrun, hs'⟩ := ih hnext
    exact ⟨s', by rw [Registry.run, hstep]; exact hrun, hs'⟩

/-- Leases stay where they are, and what was delivered stays so. -/
structure Later (s s' : Registry) : Prop where
  leases : ∀ (address : Nat) lease, s.leases[address]? = some lease →
    ∃ lease', s'.leases[address]? = some lease' ∧ lease'.id = lease.id
  delivered : s.delivered <+: s'.delivered

theorem Later.refl (s : Registry) : Later s s := ⟨fun _ lease h => ⟨lease, h, rfl⟩, prefix_refl _⟩

theorem Later.trans {s s' s'' : Registry} (h : Later s s') (h' : Later s' s'') : Later s s'' := by
  refine ⟨fun address lease hlse => ?_, h.delivered.trans h'.delivered⟩
  obtain ⟨lease', hlse', hid⟩ := h.leases address lease hlse
  obtain ⟨lease'', hlse'', hid'⟩ := h'.leases address lease' hlse'
  exact ⟨lease'', hlse'', hid'.trans hid⟩

/-- Changes of a lease that leave its identity. -/
theorem later_modify {s : Registry} (change : RootLease → RootLease)
    (hchg : ∀ lease, (change lease).id = lease.id) :
    Later s { s with roots, leases := s.leases.modify address change, loan } := by
  refine ⟨fun other lease hlse => ?_, prefix_refl _⟩
  refine ⟨if address = other then change lease else lease, ?_, ?_⟩
  · exact (getElem?_modify ..).trans (congrArg (Option.map _) hlse)
  · split
    · exact hchg lease
    · rfl

theorem step_later {s' : Registry} {what : Step} (h : s.step what = some s') : Later s s' := by
  have hsame {roots : Roots} {loan : Loan} : Later s { s with roots, loan } :=
    ⟨fun _ lease hlse => ⟨lease, hlse, rfl⟩, List.prefix_refl _⟩
  unfold Registry.step at h
  split at h
  · split at h
    · cases h
      refine ⟨fun _ lease hlse => ⟨lease, ?_, rfl⟩, List.prefix_refl _⟩
      exact (List.getElem?_append_left (List.getElem?_eq_some_iff.mp hlse).1).trans hlse
    · cases h
      exact hsame
  · obtain ⟨lease, -, hcommit⟩ := Option.bind_eq_some_iff.mp h
    obtain ⟨roots, -, hs'⟩ := Option.bind_eq_some_iff.mp hcommit
    cases hs'
    exact later_modify _ fun _ => rfl
  · cases h
    exact later_modify _ fun _ => rfl
  · split at h
    · cases h
      exact hsame
    · cases h
      exact .refl s
  · split at h
    · cases h
      exact hsame
    · cases h
      exact .refl s
  · obtain ⟨_, -, hs'⟩ := Option.bind_eq_some_iff.mp h
    cases hs'
    exact ⟨fun _ lease hlse => ⟨lease, hlse, rfl⟩, List.prefix_append _ _⟩
  · cases h
    exact hsame
  · split at h
    · cases h
      exact .refl s
    · cases h
      exact later_modify _ fun _ => rfl
  · split at h
    · cases h
      exact .refl s
    · cases h
      exact later_modify _ fun _ => rfl
  · split at h
    · split at h
      · obtain ⟨released, -, rfl⟩ := Option.map_eq_some_iff.mp h
        exact later_modify _ fun _ => rfl
      · cases h
        exact .refl s
    · cases h
      exact .refl s
  · cases h
    exact .refl s

theorem run_later : ∀ {s s' : Registry}, s.run steps = some s' → Later s s' := by
  induction steps with
  | nil =>
    intro s s' h
    cases h
    exact .refl s
  | cons what steps ih =>
    intro s s' h
    obtain ⟨next, hstep, hrun⟩ := Option.bind_eq_some_iff.mp h
    exact (step_later hstep).trans (ih hrun)

/-! ## The registry -/

/-- A lease is admitted while its root is outstanding. -/
theorem Sound.admit_ok (h : s.Sound) (hlse : s.leases[address]? = some lease)
    (harmed : lease.armed = true) (hid : lease.id ∉ s.delivered) :
    ∃ held, s.roots.slots.get lease.id.slot = some held ∧ s.roots.admitLease address lease = .ok held.entry := by
  obtain ⟨held, hheld, hgen, haddr⟩ := h.held address lease hlse harmed hid
  refine ⟨held, hheld, ?_⟩
  unfold Roots.admitLease
  rw [if_neg (not_not.mpr (h.known lease (mem_of_getElem? hlse)).1), hheld,
    Option.filter_some_pos (by simpa using hgen)]
  exact if_neg (not_not.mpr haddr)

theorem Sound.admit_error (h : s.Sound) (hlse : s.leases[address]? = some lease)
    (hout : lease.armed = true → lease.id ∈ s.delivered) : s.roots.admitLease address lease = .error .invalidRoot := by
  have hmem := mem_of_getElem? hlse
  have hheap := (h.known lease hmem).1
  unfold Roots.admitLease
  rw [if_neg (not_not.mpr hheap)]
  split
  · rfl
  · rename_i held hfilter
    obtain ⟨hheld, hgen⟩ := Option.filter_eq_some_iff.mp hfilter
    obtain ⟨other, hother, hid, harmed, hdlvd⟩ := h.occupied lease.id.slot held hheld
    have hsame : other = lease := h.unique (mem_of_getElem? hother) hmem (by rw [hid]; exact of_decide_eq_true hgen)
    rw [hsame] at harmed hdlvd
    exact absurd (hout harmed) hdlvd

/-- The two halves of `release_one`, as often as said. -/
def drain : Nat → List Step
  | 0 => []
  | n + 1 => .popRelease :: .release :: drain n

/-- The heap takes the notices in their order. -/
theorem Sound.drain (queue : List RootId) : ∀ {s : Registry}, s.Sound → s.loan = .free →
    s.roots.released.pending.items = queue → ∃ s', s.run (drain queue.length) = some s' ∧
      s'.delivered = s.delivered ++ queue ∧ s'.roots.released.pending.items = [] := by
  induction queue with
  | nil => exact fun _ _ hqueue => ⟨_, rfl, (append_nil _).symm, hqueue⟩
  | cons id queue ih =>
    intro s h hloan hqueue
    obtain ⟨pending, hfront, hits⟩ : ∃ pending, s.roots.released.pending.popFront = some (id, pending) ∧
        pending.items = queue := by
      generalize s.roots.released.pending = pending at hqueue
      obtain ⟨items, capacity, fits⟩ := pending
      obtain rfl : items = id :: queue := hqueue
      exact ⟨_, rfl, rfl⟩
    have hpop : s.roots.popRelease = some (id, { s.roots with released := { s.roots.released with pending } }) := by
      unfold Roots.popRelease
      rw [hfront]
      rfl
    have hsound := h.popRelease hloan hpop
    obtain ⟨entry, roots, hrls, hpend, hsound'⟩ := hsound.release rfl
    obtain ⟨s', hrun, hdlvd, hemp⟩ := ih hsound' rfl (by rw [hpend]; exact hits)
    refine ⟨s', ?_, ?_, hemp⟩
    · have hfst : s.step .popRelease = some { s with
          roots := { s.roots with released := { s.roots.released with pending } }, loan := .releasing id } := by
        simp [Registry.step, hloan, hpop]
      have hsnd : Registry.step { s with
          roots := { s.roots with released := { s.roots.released with pending } }, loan := .releasing id } .release =
          some { s with roots, loan := .free, delivered := s.delivered ++ [id] } := by
        simp [Registry.step, hrls]
      rw [length_cons, Registry.drain, Registry.run, hfst, Option.bind_some, Registry.run, hsnd]
      exact hrun
    · rw [hdlvd, append_assoc, singleton_append]

/-- What the registry keeps to: places, counts, room for every notice, and each release once. -/
structure Kept (s : Registry) : Prop where
  active : ∀ i slot, s.roots.active.items[i]? = some slot ↔
    ∃ held, s.roots.slots.get slot = some held ∧ held.entry.activeIndex = i
  nodup : s.roots.active.items.Nodup
  count : s.roots.count = s.outstanding.card
  credits : s.roots.released.credits = s.outstanding.card
  capacity : s.outstanding.card ≤ s.roots.released.pending.capacity
  notices : ∀ id, id ∈ s.roots.released.pending.items ++ s.releasing ++ s.delivered ↔
    ∃ lease ∈ s.leases, lease.id = id ∧ lease.armed = true ∧ lease.handles = .dropped
  once : (s.roots.released.pending.items ++ s.releasing ++ s.delivered).Nodup
  drained : s.loan = .free → ∃ s', s.run (drain s.roots.released.pending.items.length) = some s' ∧
    s'.delivered = s.delivered ++ s.roots.released.pending.items ∧ s'.roots.released.pending.items = []
  admitted : ∀ (address : Nat) lease, s.leases[address]? = some lease → lease.armed = true → lease.id ∉ s.delivered →
    ∃ held, s.roots.slots.get lease.id.slot = some held ∧ s.roots.admitLease address lease = .ok held.entry

theorem Sound.kept (h : s.Sound) : s.Kept where
  active := h.placed
  nodup := by
    rw [nodup_iff_injective_get]
    intro i j heq
    have hi := (h.placed i _).mp (getElem?_eq_getElem i.isLt)
    have hj := (h.placed j _).mp (getElem?_eq_getElem j.isLt)
    obtain ⟨held, hheld, hidx⟩ := hi
    obtain ⟨held', hheld', hidx'⟩ := hj
    have hsame : held = held' := Option.some.inj (hheld.symm.trans ((congrArg _ heq).trans hheld'))
    exact Fin.ext (hidx.symm.trans (hsame ▸ hidx'))
  count := h.count
  credits := h.credits
  capacity := h.credits ▸ h.room
  notices := h.notices
  once := h.once
  drained := fun hloan => Sound.drain _ h hloan rfl
  admitted := fun _ _ hlse harmed hid => h.admit_ok hlse harmed hid

end Registry

/-- Whatever is done to the registry and to the handles of its roots, in whatever order: nothing panics, the
registry keeps to its invariant, and a lease whose root was released is never admitted again. -/
theorem roots_registry (heap : Nat) (steps more : List Step) : ∃ s s', (Registry.start heap).run steps = some s ∧
    s.run more = some s' ∧ s.Kept ∧ ∀ (address : Nat) lease, s.leases[address]? = some lease → lease.id ∈ s.delivered →
      ∃ lease', s'.leases[address]? = some lease' ∧ lease'.id = lease.id ∧
        s'.roots.admitLease address lease' = .error .invalidRoot := by
  obtain ⟨s, hrun, hs⟩ := (Registry.sound_start heap).run steps
  obtain ⟨s', hrun', hs'⟩ := hs.run more
  refine ⟨s, s', hrun, hrun', hs.kept, fun address lease hlse hid => ?_⟩
  have hlat := Registry.run_later more hrun'
  obtain ⟨lease', hlse', hsame⟩ := hlat.leases address lease hlse
  exact ⟨lease', hlse', hsame, hs'.admit_error hlse' fun _ => hsame ▸ hlat.delivered.subset hid⟩

end Kagari.Gc
