import Mathlib.Data.BitVec

/-!
# Arenas whose identities carry a generation

A slot is used again after its contents were retired, with the next generation; a slot whose generations
are used up is not. `History` is what the users of an arena see: the identities they were given, and what
each stands for. `Tracks` says that an arena keeps to its history: no identity is given twice, and one that
was retired never stands for anything again.
-/

namespace Lib

open Function List Option

@[ext]
structure Ident (w : Nat) where
  index : Nat
  generation : BitVec w
deriving DecidableEq

structure Arena (w : Nat) (T : Type) where
  generations : List (BitVec w)
  contents : Nat → Option T
  /-- The slots to use again, the next one first. -/
  free : List Nat

variable (slots : List Nat)

namespace Arena

variable {w : Nat} {T : Type}

def empty : Arena w T := ⟨[], fun _ => none, []⟩

def read (a : Arena w T) (id : Ident w) : Option T :=
  if a.generations[id.index]? = some id.generation then a.contents id.index else none

variable {a : Arena w T} {id : Ident w}

theorem read_of_current (h : a.generations[id.index]? = some id.generation) :
    a.read id = a.contents id.index := if_pos h

theorem read_of_stale (h : a.generations[id.index]? ≠ some id.generation) :
    a.read id = none := if_neg h

theorem read_of_vacant (h : a.contents id.index = none) : a.read id = none := by
  rw [read, h, ite_self]

theorem read_congr {a a' : Arena w T}
    (hgen : a'.generations[id.index]? = a.generations[id.index]?)
    (hcont : a'.contents id.index = a.contents id.index) : a'.read id = a.read id := by
  rw [read, read, hcont, hgen]

def alloc (a : Arena w T) (value : T) : Arena w T × Ident w :=
  match a.free with
  | [] => (⟨a.generations ++ [0], update a.contents a.generations.length (some value), []⟩,
      ⟨a.generations.length, 0⟩)
  | i :: free => ({ a with contents := update a.contents i (some value), free },
      ⟨i, (a.generations[i]?).getD 0⟩)

def write (a : Arena w T) (i : Nat) (value : T) : Arena w T :=
  { a with contents := update a.contents i (some value) }

/-- The slot is vacant, and free unless its generations are used up. -/
def retire (a : Arena w T) (i : Nat) : Arena w T :=
  match a.generations[i]? with
  | none => a
  | some g =>
    if g = BitVec.allOnes w then { a with contents := update a.contents i none }
    else ⟨a.generations.set i (g + 1), update a.contents i none, i :: a.free⟩

theorem length_foldl_retire : ∀ a : Arena w T,
    (slots.foldl retire a).generations.length = a.generations.length := by
  induction slots with
  | nil => exact fun _ => rfl
  | cons i slots ih =>
    intro a
    rw [foldl_cons, ih]
    unfold retire
    split
    · rfl
    · split <;> simp

end Arena

structure History (w : Nat) (T : Type) where
  issued : List (Ident w)
  /-- What an identity stands for. -/
  last : Ident w → Option T

namespace History

variable {w : Nat} {T : Type}

def empty : History w T := ⟨[], fun _ => none⟩

def issue (h : History w T) (id : Ident w) (value : T) : History w T :=
  ⟨id :: h.issued, update h.last id (some value)⟩

def write (h : History w T) (id : Ident w) (value : T) : History w T :=
  { h with last := update h.last id (some value) }

def retire (h : History w T) (id : Ident w) : History w T := { h with last := update h.last id none }

end History

/-! ## Tracking -/

structure Tracks {w : Nat} {T : Type} (a : Arena w T) (h : History w T) : Prop where
  reads : ∀ id, a.read id = h.last id
  nodup : h.issued.Nodup
  /-- An identity that was given out is the slot's or an earlier one, and of a vacant slot it is the slot's
  only if the generations are used up. -/
  issued : ∀ id ∈ h.issued, ∃ g, a.generations[id.index]? = some g ∧ id.generation ≤ g ∧
    (id.generation = g → (a.contents id.index).isSome ∨ g = BitVec.allOnes w)
  occupied : ∀ i, (a.contents i).isSome → ∃ g, a.generations[i]? = some g ∧ ⟨i, g⟩ ∈ h.issued
  freeNodup : a.free.Nodup
  free : ∀ i, i ∈ a.free ↔
    i < a.generations.length ∧ a.contents i = none ∧ ⟨i, BitVec.allOnes w⟩ ∉ h.issued

variable {i : Nat}

namespace Tracks

variable {w : Nat} {T : Type} {a : Arena w T} {h : History w T}

theorem empty : Tracks (Arena.empty : Arena w T) History.empty where
  reads _ := by simp [Arena.read, Arena.empty, History.empty]
  nodup := .nil
  issued _ hid := by cases hid
  occupied _ hi := by cases hi
  freeNodup := .nil
  free _ := by simp [Arena.empty]

variable {id : Ident w}

/-- What an identity reads is in its slot, and the identity was given out. -/
theorem of_read (ht : Tracks a h) {value : T} (hread : a.read id = some value) :
    a.generations[id.index]? = some id.generation ∧ a.contents id.index = some value ∧ id ∈ h.issued := by
  unfold Arena.read at hread
  split at hread
  · rename_i hgen
    obtain ⟨g, hg, hmem⟩ := ht.occupied id.index (by rw [hread]; rfl)
    rw [hgen] at hg
    cases hg
    exact ⟨hgen, hread, hmem⟩
  · cases hread

variable {g : BitVec w}

/-- An identity of an older generation stands for nothing. -/
theorem stale (ht : Tracks a h) (hg : a.generations[id.index]? = some g)
    (hne : id.generation ≠ g) : h.last id = none := by
  rw [← ht.reads, Arena.read, hg, if_neg]
  rintro h
  exact hne (some.inj h).symm

/-- The next identity of a free slot is new. -/
theorem fresh (ht : Tracks a h) (hi : i ∈ a.free) (hg : a.generations[i]? = some g) :
    ⟨i, g⟩ ∉ h.issued := by
  intro hmem
  obtain ⟨-, hvac, hunused⟩ := (ht.free i).mp hi
  obtain ⟨g', hg', -, hcur⟩ := ht.issued _ hmem
  rw [hg] at hg'
  cases hg'
  rcases hcur rfl with hsome | rfl
  · rw [hvac] at hsome
    cases hsome
  · exact hunused hmem

theorem lt_length_iff {l l' : List (BitVec w)} {j : Nat} (heq : l'[j]? = l[j]?) : j < l'.length ↔ j < l.length := by
  have hiff : l'[j]? = none ↔ l[j]? = none := by rw [heq]
  rw [getElem?_eq_none_iff, getElem?_eq_none_iff] at hiff
  omega

/-- A value is placed in a vacant slot under an identity that is new. -/
theorem place (ht : Tracks a h) {a' : Arena w T} (value : T)
    (hg : a'.generations[i]? = some g) (hoths : ∀ j, j ≠ i → a'.generations[j]? = a.generations[j]?)
    (hold : ∀ g', a.generations[i]? = some g' → g' = g) (hvac : a.contents i = none)
    (hfr : ⟨i, g⟩ ∉ h.issued) (hcont : a'.contents = update a.contents i (some value))
    (hnd : a'.free.Nodup) (hfree : ∀ j, j ∈ a'.free ↔ j ≠ i ∧ j ∈ a.free) :
    Tracks a' (h.issue ⟨i, g⟩ value) where
  reads id := by
    by_cases hi : id.index = i
    · by_cases hid : id = ⟨i, g⟩
      · subst hid
        rw [Arena.read_of_current hg, hcont]
        simp [History.issue]
      · have hstale : a'.generations[id.index]? ≠ some id.generation := by
          rw [hi, hg]
          intro heq
          cases heq
          exact hid (by rw [← hi])
        have hnone : h.last id = none := by rw [← ht.reads, Arena.read_of_vacant (by rw [hi, hvac])]
        rw [Arena.read_of_stale hstale]
        simp [History.issue, update_of_ne hid, hnone]
    · have hid : id ≠ ⟨i, g⟩ := fun heq => hi (by rw [heq])
      have hread : a'.read id = a.read id :=
        Arena.read_congr (hoths _ hi) (by rw [hcont, update_of_ne hi])
      rw [hread, ht.reads]
      simp [History.issue, update_of_ne hid]
  nodup := nodup_cons.mpr ⟨hfr, ht.nodup⟩
  issued id hid := by
    rcases mem_cons.mp hid with rfl | hid
    · exact ⟨g, hg, BitVec.le_refl _, fun _ => .inl (by simp [hcont])⟩
    · obtain ⟨g', hg', hle, hcur⟩ := ht.issued id hid
      by_cases hi : id.index = i
      · rw [hi] at hg'
        obtain rfl := hold g' hg'
        exact ⟨g', by rw [hi, hg], hle, fun _ => .inl (by simp [hcont, hi])⟩
      · exact ⟨g', by rw [hoths _ hi, hg'], hle, by rwa [hcont, update_of_ne hi]⟩
  occupied j hj := by
    by_cases hi : j = i
    · subst hi
      exact ⟨g, hg, mem_cons_self⟩
    · rw [hcont, update_of_ne hi] at hj
      obtain ⟨g', hg', hmem⟩ := ht.occupied j hj
      exact ⟨g', by rw [hoths _ hi, hg'], mem_cons_of_mem _ hmem⟩
  freeNodup := hnd
  free j := by
    rw [hfree, ht.free]
    by_cases hi : j = i
    · subst hi
      simp [hcont]
    · rw [lt_length_iff (hoths j hi), hcont, update_of_ne hi]
      simp [History.issue, hi]

theorem alloc (ht : Tracks a h) (value : T) : Tracks (a.alloc value).1 (h.issue (a.alloc value).2 value) := by
  cases hfree : a.free with
  | nil =>
    have hnone : a.generations[a.generations.length]? = none := by simp
    have hvac : a.contents a.generations.length = none := by
      by_contra hsome
      obtain ⟨g, hg, -⟩ := ht.occupied _ (isSome_iff_ne_none.mpr hsome)
      rw [hnone] at hg
      cases hg
    simp only [Arena.alloc, hfree]
    refine ht.place value (by simp) (fun j hj => ?_) (fun g' hg' => ?_) hvac (fun hmem => ?_) rfl .nil ?_
    · rcases Nat.lt_or_gt_of_ne hj with hlt | hgt
      · simp [getElem?_append_left hlt]
      · rw [getElem?_eq_none (by simp; omega), getElem?_eq_none (by omega)]
    · rw [hnone] at hg'
      cases hg'
    · obtain ⟨g, hg, -⟩ := ht.issued _ hmem
      rw [hnone] at hg
      cases hg
    · simp [hfree]
  | cons i free =>
    have hi : i ∈ a.free := by simp [hfree]
    obtain ⟨hlt, hvac, -⟩ := (ht.free i).mp hi
    have hg := getElem?_eq_getElem hlt
    have hnd := ht.freeNodup
    rw [hfree, nodup_cons] at hnd
    simp only [Arena.alloc, hfree, hg, getD_some]
    refine ht.place value hg (fun _ _ => rfl) (fun g' hg' => ?_) hvac (ht.fresh hi hg) rfl hnd.2 (fun j => ?_)
    · rw [hg] at hg'
      exact (some.inj hg').symm
    · rw [hfree, mem_cons]
      constructor
      · intro hj
        exact ⟨fun heq => hnd.1 (heq ▸ hj), .inr hj⟩
      · rintro ⟨hne, heq | hj⟩
        · exact absurd heq hne
        · exact hj

theorem write (ht : Tracks a h) (hlive : (h.last id).isSome) (value : T) :
    Tracks (a.write id.index value) (h.write id value) := by
  obtain ⟨old, hold⟩ := isSome_iff_exists.mp hlive
  obtain ⟨hgen, hcont, -⟩ := ht.of_read ((ht.reads id).trans hold)
  have hsome (i : Nat) : (update a.contents id.index (some value) i).isSome = (a.contents i).isSome := by
    by_cases hi : i = id.index
    · simp [hi, hcont]
    · rw [update_of_ne hi]
  refine ⟨fun id' => ?_, ht.nodup, fun id' hid' => ?_, fun i hi => ?_, ht.freeNodup, fun i => ?_⟩
  · by_cases hid : id' = id
    · subst hid
      have hread : (a.write id'.index value).read id' = _ := Arena.read_of_current hgen
      rw [hread]
      simp [Arena.write, History.write]
    · simp only [History.write, update_of_ne hid, ← ht.reads id']
      by_cases hi : id'.index = id.index
      · have hstale : a.generations[id'.index]? ≠ some id'.generation := by
          rw [hi, hgen]
          intro heq
          exact hid (Ident.ext hi (some.inj heq).symm)
        rw [Arena.read_of_stale hstale]
        exact Arena.read_of_stale hstale
      · exact Arena.read_congr rfl (update_of_ne hi _ _)
  · obtain ⟨g, hg, hle, hcur⟩ := ht.issued id' hid'
    exact ⟨g, hg, hle, by simpa [Arena.write, hsome] using hcur⟩
  · exact ht.occupied i (by simpa [Arena.write, hsome] using hi)
  · rw [show (a.write id.index value).free = a.free from rfl, ht.free i]
    have : (a.write id.index value).contents i = none ↔ a.contents i = none := by
      rw [← isNone_iff_eq_none, ← isNone_iff_eq_none, ← not_isSome, ← not_isSome]
      simp [Arena.write, hsome]
    rw [this]
    rfl

theorem vacated_read (ht : Tracks a h) (hlive : (h.last id).isSome) {generations : List (BitVec w)}
    {free : List Nat} (hoths : ∀ j, j ≠ id.index → generations[j]? = a.generations[j]?) (id' : Ident w) :
    Arena.read ⟨generations, update a.contents id.index none, free⟩ id' = (h.retire id).last id' := by
  obtain ⟨old, hold⟩ := isSome_iff_exists.mp hlive
  obtain ⟨hgen, -, -⟩ := ht.of_read ((ht.reads id).trans hold)
  by_cases hidx : id'.index = id.index
  · rw [Arena.read_of_vacant (by simp [hidx])]
    by_cases hid : id' = id
    · simp [History.retire, hid]
    · -- an identity of the slot other than its current one stands for nothing
      have hnone : h.last id' = none :=
        ht.stale (by rw [hidx, hgen]) fun heq => hid (Ident.ext hidx heq)
      simp [History.retire, update_of_ne hid, hnone]
  · have hid : id' ≠ id := fun heq => hidx (by rw [heq])
    simp only [History.retire, update_of_ne hid, ← ht.reads id']
    exact Arena.read_congr (hoths _ hidx) (update_of_ne hidx _ _)

theorem lt_next (hg : g ≠ BitVec.allOnes w) : g.toNat < 2 ^ w - 1 ∧ (g + 1).toNat = g.toNat + 1 := by
  have hne : g.toNat ≠ 2 ^ w - 1 := by
    intro heq
    exact hg (BitVec.eq_of_toNat_eq (by rw [heq, BitVec.toNat_allOnes]))
  have hlt := g.isLt
  have hw : 1 < 2 ^ w := by omega
  refine ⟨by omega, ?_⟩
  rw [show g + 1 = g + 1#w from rfl, BitVec.toNat_add, BitVec.toNat_ofNat, Nat.mod_eq_of_lt hw,
    Nat.mod_eq_of_lt (by omega)]

/-- The slot of an identity that is live is vacated. -/
theorem retire (ht : Tracks a h) (hlive : (h.last id).isSome) :
    Tracks (a.retire id.index) (h.retire id) := by
  obtain ⟨old, hold⟩ := isSome_iff_exists.mp hlive
  obtain ⟨hgen, hcont, hissued⟩ := ht.of_read ((ht.reads id).trans hold)
  have hnotFree : id.index ∉ a.free := by
    intro hmem
    rw [((ht.free _).mp hmem).2.1] at hcont
    cases hcont
  by_cases hlast : id.generation = BitVec.allOnes w
  · have hretr : a.retire id.index = { a with contents := update a.contents id.index none } := by
      simp only [Arena.retire, hgen, hlast, if_true]
    rw [hretr]
    refine ⟨fun id' => ?_, ht.nodup, fun id' hid' => ?_, fun i hi => ?_, ht.freeNodup, fun i => ?_⟩
    · exact ht.vacated_read hlive (fun _ _ => rfl) id'
    · obtain ⟨g, hg, hle, hcur⟩ := ht.issued id' hid'
      refine ⟨g, hg, hle, fun heq => ?_⟩
      by_cases hidx : id'.index = id.index
      · rw [hidx, hgen] at hg
        exact .inr ((some.inj hg).symm.trans hlast)
      · simpa [update_of_ne hidx] using hcur heq
    · by_cases hidx : i = id.index
      · simp [hidx] at hi
      · exact ht.occupied i (by simpa [update_of_ne hidx] using hi)
    · by_cases hidx : i = id.index
      · subst hidx
        have hused : (⟨id.index, BitVec.allOnes w⟩ : Ident w) ∈ h.issued := by rwa [← hlast]
        simp [hnotFree, History.retire, hused]
      · simpa [update_of_ne hidx, History.retire] using ht.free i
  · obtain ⟨hlt, hnext⟩ := lt_next hlast
    have hretr : a.retire id.index = ⟨a.generations.set id.index (id.generation + 1),
        update a.contents id.index none, id.index :: a.free⟩ := by
      simp only [Arena.retire, hgen, hlast, if_false]
    have hbnd := (List.getElem?_eq_some_iff.mp hgen).1
    have hself : (a.generations.set id.index (id.generation + 1))[id.index]? = some (id.generation + 1) := by
      rw [List.getElem?_set_self hbnd]
    rw [hretr]
    refine ⟨fun id' => ?_, ht.nodup, fun id' hid' => ?_, fun i hi => ?_, ?_, fun i => ?_⟩
    · exact ht.vacated_read hlive (fun _ hj => List.getElem?_set_ne (Ne.symm hj)) id'
    · obtain ⟨g, hg, hle, hcur⟩ := ht.issued id' hid'
      by_cases hidx : id'.index = id.index
      · rw [hidx, hgen] at hg
        cases hg
        rw [BitVec.le_def] at hle
        refine ⟨id.generation + 1, by simpa [hidx] using hself, ?_, fun heq => ?_⟩
        · rw [BitVec.le_def]
          omega
        · rw [heq] at hle
          omega
      · refine ⟨g, by simpa [List.getElem?_set_ne (Ne.symm hidx)] using hg, hle, ?_⟩
        simpa [update_of_ne hidx] using hcur
    · by_cases hidx : i = id.index
      · simp [hidx] at hi
      · have hi' : (a.contents i).isSome := by simpa [update_of_ne hidx] using hi
        simpa [List.getElem?_set_ne (Ne.symm hidx), History.retire] using ht.occupied i hi'
    · exact List.nodup_cons.mpr ⟨hnotFree, ht.freeNodup⟩
    · by_cases hidx : i = id.index
      · subst hidx
        have hunused : (⟨id.index, BitVec.allOnes w⟩ : Ident w) ∉ h.issued := by
          intro hmem
          obtain ⟨g, hg, hle, -⟩ := ht.issued _ hmem
          rw [hgen] at hg
          cases hg
          rw [BitVec.le_def, BitVec.toNat_allOnes] at hle
          omega
        simp [History.retire, hunused, hbnd]
      · rw [List.mem_cons]
        simpa [update_of_ne hidx, hidx, History.retire] using ht.free i

/-- The identity of an occupied slot. -/
theorem current (ht : Tracks a h) (hi : (a.contents i).isSome) : ∃ id : Ident w, id.index = i ∧
    a.generations[i]? = some id.generation ∧ h.last id = a.contents i := by
  obtain ⟨g, hg, -⟩ := ht.occupied i hi
  exact ⟨⟨i, g⟩, rfl, hg, by rw [← ht.reads, Arena.read_of_current hg]⟩

/-- Of an occupied slot, only its current identity stands for something. -/
theorem last_retire (ht : Tracks a h) (hlive : (h.last id).isSome) (id' : Ident w) :
    (h.retire id).last id' = if id'.index = id.index then none else h.last id' := by
  have hread : Arena.read ⟨a.generations, update a.contents id.index none, a.free⟩ id' = _ :=
    ht.vacated_read hlive (fun _ _ => rfl) id'
  rw [← hread]
  split
  · rename_i hidx
    exact Arena.read_of_vacant (by simp [hidx])
  · rename_i hidx
    rw [← ht.reads]
    exact Arena.read_congr rfl (update_of_ne hidx _ _)

theorem contents_retire (hi : i < a.generations.length) (j : Nat) :
    (a.retire i).contents j = if j = i then none else a.contents j := by
  unfold Arena.retire
  rw [getElem?_eq_getElem hi]
  simp only
  split <;> simp [update_apply]

theorem retireAll : ∀ {a : Arena w T} {h : History w T}, Tracks a h → slots.Nodup →
    (∀ i ∈ slots, (a.contents i).isSome) → Tracks (slots.foldl Arena.retire a)
      { h with last := fun id => if id.index ∈ slots then none else h.last id } := by
  induction slots with
  | nil =>
    intro a h ht _ _
    simpa using ht
  | cons i slots ih =>
    intro a h ht hnd hocc
    rw [List.nodup_cons] at hnd
    have hi := hocc i (by simp)
    obtain ⟨id, rfl, hgen, hlast⟩ := ht.current hi
    have hlive : (h.last id).isSome := by rwa [hlast]
    have hother : ∀ j ∈ slots, j ≠ id.index := fun j hj heq => hnd.1 (heq ▸ hj)
    have hrest := ih (ht.retire hlive) hnd.2 fun j hj => by
      rw [contents_retire (List.getElem?_eq_some_iff.mp hgen).1, if_neg (hother j hj)]
      exact hocc j (by simp [hj])
    have hhist : { h.retire id with
        last := fun id' => if id'.index ∈ slots then none else (h.retire id).last id' } =
        { h with last := fun id' => if id'.index ∈ id.index :: slots then none else h.last id' } := by
      refine congrArg (History.mk h.issued) (funext fun id' => ?_)
      rw [ht.last_retire hlive]
      by_cases hsl : id'.index ∈ slots
      · simp [hsl]
      · by_cases hidx : id'.index = id.index <;> simp [hsl, hidx]
    rw [hhist] at hrest
    exact hrest

end Tracks

/-- All contents change at once. -/
theorem Tracks.map {w : Nat} {T : Type} {a : Arena w T} {h : History w T} (ht : Tracks a h) (f : T → T) :
    Tracks { a with contents := fun i => (a.contents i).map f } { h with last := fun id => (h.last id).map f } where
  reads id := by
    dsimp only
    rw [← ht.reads]
    unfold Arena.read
    split <;> rfl
  nodup := ht.nodup
  issued id hid := by simpa using ht.issued id hid
  occupied i hi := ht.occupied i (by simpa using hi)
  freeNodup := ht.freeNodup
  free i := by simpa using ht.free i

/-! ## Later histories -/

/-- What was given out stays given out, and what was retired stays retired; a slot whose generations are used up
gets no more identities. -/
structure History.Later {w : Nat} {T : Type} (h h' : History w T) : Prop where
  issued : h.issued ⊆ h'.issued
  retired : ∀ id ∈ h.issued, h.last id = none → h'.last id = none
  exhausted : ∀ i, ⟨i, BitVec.allOnes w⟩ ∈ h.issued → ∀ id ∈ h'.issued, id.index = i → id ∈ h.issued

namespace History

variable {w : Nat} {T : Type} {h h' h'' : History w T} {a : Arena w T} {id : Ident w}

theorem Later.refl (h : History w T) : Later h h :=
  ⟨List.Subset.refl _, fun _ _ hnone => hnone, fun _ _ _ hid _ => hid⟩

theorem Later.trans (h₁ : Later h h') (h₂ : Later h' h'') : Later h h'' where
  issued := List.Subset.trans h₁.issued h₂.issued
  retired id hid hnone := h₂.retired id (h₁.issued hid) (h₁.retired id hid hnone)
  exhausted i hi id hid hidx := h₁.exhausted i hi id (h₂.exhausted i (h₁.issued hi) id hid hidx) hidx

theorem Later.issue {value : T} (ht : Tracks a (h.issue id value)) : Later h (h.issue id value) := by
  have hfr : id ∉ h.issued := (nodup_cons.mp ht.nodup).1
  refine ⟨subset_cons_self _ _, fun id' hid' hnone => ?_, fun i hi id' hid' hidx => ?_⟩
  · have hne : id' ≠ id := fun heq => hfr (heq ▸ hid')
    simpa [History.issue, update_of_ne hne] using hnone
  · rcases mem_cons.mp hid' with rfl | hid'
    · -- the identity is current, and no generation comes after the one that was given out
      have hread : a.read id' = some value := by simp [ht.reads, History.issue]
      obtain ⟨hcur, -, -⟩ := ht.of_read hread
      obtain ⟨g, hg, hle, -⟩ := ht.issued ⟨i, BitVec.allOnes w⟩ (mem_cons_of_mem _ hi)
      rw [hidx] at hcur
      cases hcur.symm.trans hg
      have hlast : id'.generation = BitVec.allOnes w := by
        rw [BitVec.le_def, BitVec.toNat_allOnes] at hle
        apply BitVec.eq_of_toNat_eq
        rw [BitVec.toNat_allOnes]
        have hlt := id'.generation.isLt
        omega
      have heq : id' = ⟨i, BitVec.allOnes w⟩ := Ident.ext hidx hlast
      rw [heq] at hfr
      exact absurd hi hfr
    · exact hid'

theorem Later.write {value : T} (hlive : (h.last id).isSome) : Later h (h.write id value) := by
  refine ⟨List.Subset.refl _, fun id' _ hnone => ?_, fun _ _ _ hid' _ => hid'⟩
  have hne : id' ≠ id := by
    rintro rfl
    rw [hnone] at hlive
    cases hlive
  simpa [History.write, update_of_ne hne] using hnone

theorem Later.retire (h : History w T) (id : Ident w) : Later h (h.retire id) := by
  refine ⟨List.Subset.refl _, fun id' _ hnone => ?_, fun _ _ _ hid' _ => hid'⟩
  by_cases hid : id' = id
  · simp [History.retire, hid]
  · simpa [History.retire, update_of_ne hid] using hnone

theorem Later.map (h : History w T) (f : T → T) : Later h { h with last := fun id => (h.last id).map f } :=
  ⟨List.Subset.refl _, fun id _ hnone => by simp [hnone], fun _ _ _ hid _ => hid⟩

end History

/-! ## Changes of one entry -/

section Entries

variable {α β : Type} {l : List α} {i : Nat} {x : α}

theorem set_entry (h : l[i]? = some x) : l.set i x = l := by
  obtain ⟨hlt, rfl⟩ := List.getElem?_eq_some_iff.mp h
  exact List.set_getElem_self hlt

theorem map_set_entry (h : l[i]? = some x) (f : α → β) : (l.map f).set i (f x) = l.map f := by
  rw [← map_set, set_entry h]

theorem modify_entry (h : l[i]? = some x) (f : α → α) : l.modify i f = l.set i (f x) := by
  apply List.ext_getElem?
  intro j
  by_cases hj : i = j
  · subst hj
    rw [List.getElem?_modify_eq, h, List.getElem?_set_self (List.getElem?_eq_some_iff.mp h).1]
    rfl
  · rw [List.getElem?_modify_ne _ _ hj, List.getElem?_set_ne hj]

end Entries

end Lib
