import Kagari.Gc.Collections
import Kagari.Lib.Versioned

/-!
# Collections keep their shape at a revision

Beside its revision a collection is stamped with whether an edit has its values, as a seqlock is. Every operation
keeps the shape that a stamp stands for, whether it returns or fails (`keeps_step`, `keeps_run`).
-/

namespace Kagari.Gc

open Lib Lib.Stateful Kagari.Runtime

variable {H V R : Type}

/-! ## Stamps and shapes -/

namespace Payload

def detached : Payload H → Bool
  | .sequence _ s => s.detached
  | _ => false

def size : Payload H → Nat
  | .sequence _ s => s.values.length
  | .map _ entries => entries.len
  | .set _ entries => entries.len

def keys : Payload H → List (BuiltKey H)
  | .sequence _ _ => []
  | .map _ entries => entries.keys
  | .set _ entries => entries.keys

def shape (p : Payload H) : Nat × List (BuiltKey H) := (p.size, p.keys)

def values : Payload H → List (Value H)
  | .sequence _ s => s.values
  | _ => []

/-- The shape, and what a sequence holds. -/
def arranged (p : Payload H) : (Nat × List (BuiltKey H)) × List (Value H) := (p.shape, p.values)

end Payload

namespace Collection

variable (c : Collection H)

/-- Odd while an edit has the values. -/
def stamp : Nat := 2 * c.revision + c.payload.detached.toNat

/-- What is seen, unless an edit has the values. -/
def seen {α : Type} (view : Payload H → α) : Option α := if c.payload.detached then none else some (view c.payload)

structure WellFormed : Prop where
  /-- The lease of an edit stands for the values that were taken out, and knows the next revision. -/
  leased : ∀ lease, c.edit = some lease → c.payload.detached = true ∧ lease.revision = c.revision + 1
  lost : c.payload.detached = true → c.edit.isSome ∨ c.quarantined = true

end Collection

variable {c : Collection H} {call : Call H}

variable {payload : Payload H} {m : HeapOp H R} {readable : Bool} {α : Type} (family : Family)
  {e : RuntimeError}

/-- An allocated collection has its values. -/
theorem wellFormed_new (h : payload.detached = false) :
    (Collection.new payload).WellFormed := ⟨nofun, fun hdet => by simp [Collection.new, h] at hdet⟩

/-- A run of an operation keeps what a view shows at a stamp, whatever comes of it. -/
abbrev SoundFor {α : Type} (view : Payload H → α) (m : HeapOp H R) (c : Collection H) : Prop :=
  Grows Collection.WellFormed (Keeps Collection.stamp (·.seen view)) m c fun _ _ => True

abbrev Sound (m : HeapOp H R) (c : Collection H) : Prop := SoundFor Payload.shape m c

theorem sound_of_arranged (h : SoundFor Payload.arranged m c) : Sound m c := by
  refine ⟨h.keeps, ⟨h.grows.grows, fun hsame => ?_⟩, h.value⟩
  have harranged := h.grows.same hsame
  unfold Collection.seen at harranged ⊢
  grind [Payload.arranged]

theorem collectionRevision_some {r : Nat} (h : c.collectionRevision readable = some r) :
    readable = true ∧ c.payload.detached = false ∧ c.revision = r := by
  unfold Collection.collectionRevision at h
  unfold Payload.detached
  grind

theorem nextRevision_some {r : Nat} (h : okOr c.nextRevision e = .ok r) : r = c.revision + 1 := by
  unfold Collection.nextRevision okOr at h
  grind

/-! ## Changes of the storage -/

theorem Collection.WellFormed.edit_none (hc : c.WellFormed) (h : c.payload.detached = false) : c.edit = none := by
  cases hedit : c.edit with
  | none => rfl
  | some lease =>
    have hdet := (hc.leased lease hedit).1
    rw [h] at hdet
    cases hdet

/-- A step that is counted, or keeps what is seen. -/
theorem keeps_of {view : Payload H → α} {c' : Collection H}
    (h : c.revision < c'.revision ∨
      c'.revision = c.revision ∧ c'.payload.detached = c.payload.detached ∧ c'.seen view = c.seen view) :
    Keeps Collection.stamp (·.seen view) c c' := by
  have hlt : c.payload.detached.toNat < 2 := Bool.toNat_lt _
  rcases h with hnext | ⟨hrev, hdet, hview⟩
  · apply Keeps.bump
    simp only [Collection.stamp]
    omega
  · refine ⟨?_, fun _ => hview⟩
    simp only [Collection.stamp, hrev, hdet]
    exact Nat.le_refl _

/-- The storage is changed, and the revision unless the same is seen. -/
theorem sound_set {view : Payload H → α} {next : Nat} (hc : c.WellFormed)
    (hatt : c.payload.detached = false)
    (hkept : payload.detached = false)
    (h : c.revision < next ∨
      next = c.revision ∧ ({ c with payload, revision := next } : Collection H).seen view = c.seen view) :
    SoundFor view (set { c with payload, revision := next }) c := by
  refine .of_exec rfl ⟨fun lease hlse => ?_, fun hdet => ?_⟩ (keeps_of ?_) fun _ _ => trivial
  · rw [hc.edit_none hatt] at hlse
    cases hlse
  · rw [hkept] at hdet
    cases hdet
  · obtain hnext | ⟨hsame, hshp⟩ := h
    · exact .inl hnext
    · exact .inr ⟨hsame, hkept.trans hatt.symm, hshp⟩

theorem sound_lift {view : Payload H → α} (hc : c.WellFormed) (r : Except RuntimeError R) :
    SoundFor view (liftM r) c := .lift hc fun _ _ => trivial

/-- One part after another. -/
theorem sound_bind {α S : Type} {view : Payload H → α} {m : HeapOp H S} {rest : S → HeapOp H R}
    (hm : SoundFor view m c) (hrest : ∀ a (c' : Collection H), c'.WellFormed → SoundFor view (rest a) c') :
    SoundFor view (m >>= rest) c := hm.bind fun a c' hc' _ _ => hrest a c' hc'

theorem sound_withBufferMut (hc : c.WellFormed) (f : List (Value H) → Except RuntimeError R × List (Value H)) :
    Sound (withBufferMut call f) c := by
  unfold withBufferMut
  refine .check hc fun _ _ => ?_
  refine .check hc fun _ _ => ?_
  refine .get_bind ?_
  refine .check hc fun revision hrev => ?_
  split
  next family s hpay =>
    refine .check hc fun _ _ => ?_
    refine .check hc fun _ hatt => ?_
    have hc' : s.detached = false := by simpa [require] using hatt
    have hnext := nextRevision_some hrev
    refine sound_bind (sound_set hc (by simp [Payload.detached, hpay, hc']) hc' ?_) fun _ _ hc' => sound_lift hc' _
    split
    · exact .inl (by omega)
    · refine .inr ⟨rfl, ?_⟩
      simp_all [Payload.shape, Collection.seen, Payload.detached, Payload.size, Payload.keys]
  next => exact .throw hc

/-- A change of a table that keeps the keys unless it changes their number. -/
def Structural (f : HashTable H V → Except RuntimeError R × HashTable H V) : Prop :=
  ∀ entries, (f entries).2.len = entries.len → (f entries).2.keys = entries.keys

theorem sound_withMapMut (hc : c.WellFormed)
    {f : HashTable H (Value H) → Except RuntimeError R × HashTable H (Value H)} (hf : Structural f) :
    Sound (withMapMut call f) c := by
  unfold withMapMut
  refine .check hc fun _ _ => ?_
  refine .check hc fun _ _ => ?_
  refine .get_bind ?_
  refine .check hc fun revision hrev => ?_
  split
  next builtin entries hpay =>
    refine .check hc fun _ _ => ?_
    have hnext := nextRevision_some hrev
    refine sound_bind (sound_set hc (by simp [Payload.detached, hpay]) rfl ?_) fun _ _ hc' => sound_lift hc' _
    split
    · exact .inl (by omega)
    next hlen =>
      refine .inr ⟨rfl, ?_⟩
      have hkeys := hf entries (not_not.1 hlen)
      simp_all [Payload.shape, Collection.seen, Payload.detached, Payload.size, Payload.keys]
  next => exact .throw hc

theorem sound_withSetMut (hc : c.WellFormed) {f : HashTable H Unit → Except RuntimeError R × HashTable H Unit}
    (hf : Structural f) : Sound (withSetMut call f) c := by
  unfold withSetMut
  refine .check hc fun _ _ => ?_
  refine .check hc fun _ _ => ?_
  refine .get_bind ?_
  refine .check hc fun revision hrev => ?_
  split
  next builtin entries hpay =>
    refine .check hc fun _ _ => ?_
    have hnext := nextRevision_some hrev
    refine sound_bind (sound_set hc (by simp [Payload.detached, hpay]) rfl ?_) fun _ _ hc' => sound_lift hc' _
    split
    · exact .inl (by omega)
    next hlen =>
      refine .inr ⟨rfl, ?_⟩
      have hkeys := hf entries (not_not.1 hlen)
      simp_all [Payload.shape, Collection.seen, Payload.detached, Payload.size, Payload.keys]
  next => exact .throw hc

/-! ## Tables -/

namespace HashTable

variable {t : HashTable H V} {key : BuiltKey H} {value : V} {rooms : Rooms}

theorem keys_length (t : HashTable H V) : t.keys.length = t.len := List.length_map _

/-- An insertion adds the key at the end, or keeps the keys. -/
theorem insert_keys (t : HashTable H V) (key : BuiltKey H) (value : V) (rooms : Rooms) :
    (t.insert key value rooms).2.keys = t.keys ∨ (t.insert key value rooms).2.keys = t.keys ++ [key] := by
  unfold insert
  split
  next result storage h =>
    unfold HashStorage.insert at h
    split at h
    next old hold =>
      obtain ⟨-, rfl⟩ := Prod.mk.inj (Option.some.inj h)
      exact .inl HashStorage.keys_replace
    next hnone =>
      split at h
      · obtain ⟨-, rfl⟩ := Prod.mk.inj (Option.some.inj h)
        exact .inl rfl
      · split at h
        · obtain ⟨-, rfl⟩ := Prod.mk.inj (Option.some.inj h)
          exact .inl rfl
        · obtain ⟨buckets, -, hout⟩ := Option.map_eq_some_iff.1 h
          obtain ⟨-, rfl⟩ := Prod.mk.inj hout
          exact .inr List.map_append
  next h =>
    obtain ⟨out, hsome, -⟩ := insert_isSome t key value rooms
    rw [hsome] at h
    cases h

/-- A removal drops the keys that are equal to one, or keeps the keys. -/
theorem remove_keys (t : HashTable H V) (key : BuiltKey H) : (t.remove key).2.keys.Sublist t.keys := by
  unfold remove
  split
  next value storage h =>
    unfold HashStorage.remove at h
    split at h
    · obtain ⟨-, rfl⟩ := Prod.mk.inj (Option.some.inj h)
      exact .refl _
    · obtain ⟨buckets, -, hout⟩ := Option.map_eq_some_iff.1 h
      obtain ⟨-, rfl⟩ := Prod.mk.inj hout
      exact List.filter_sublist.map _
  next h =>
    obtain ⟨out, hsome, -⟩ := remove_isSome t key
    rw [hsome] at h
    cases h

@[simp] theorem keys_replace : (t.replace key value).keys = t.keys := HashStorage.keys_replace

/-- Where the keys are those of before, or more, or fewer. -/
theorem keys_of_len {t' : HashTable H V} (key : BuiltKey H)
    (h : t'.keys = t.keys ∨ t'.keys = t.keys ++ [key] ∨ t'.keys.Sublist t.keys) (hlen : t'.len = t.len) :
    t'.keys = t.keys := by
  have hlength : t'.keys.length = t.keys.length := by rw [keys_length, keys_length, hlen]
  obtain hsame | hmore | hfewer := h
  · exact hsame
  · rw [hmore, List.length_append] at hlength
    simp at hlength
  · exact hfewer.eq_of_length hlength

end HashTable

section Structural

variable {key : BuiltKey H} {value : V}

theorem structural_insertEntry (structural : Except RuntimeError Unit) :
    Structural (insertEntry call structural key value) := by
  intro entries hlen
  apply HashTable.keys_of_len key ?_ hlen
  have hins := HashTable.insert_keys entries key value (call.rooms 0)
  unfold insertEntry
  dsimp only
  grind

theorem structural_insertCustom (fresh : Bool) : Structural (insertCustom call fresh key value) := by
  intro entries hlen
  apply HashTable.keys_of_len key ?_ hlen
  have hins := HashTable.insert_keys entries key value (call.rooms 0)
  have hrep : (entries.replace key value).keys = entries.keys := HashTable.keys_replace
  unfold insertCustom
  grind

theorem structural_remove (f : Option V → Except RuntimeError R) :
    Structural fun entries : HashTable H V => (entries.remove key).map f id := by
  intro entries hlen
  exact HashTable.keys_of_len key (.inr (.inr (HashTable.remove_keys entries key))) hlen

theorem structural_clear (f : HashTable H V → Except RuntimeError R) :
    Structural fun entries : HashTable H V => (f entries, entries.clear) := by
  intro entries hlen
  exact HashTable.keys_of_len (.custom 0 0 .unit) (.inr (.inr (List.nil_sublist _))) hlen

theorem structural_same (r : Except RuntimeError R) : Structural fun entries : HashTable H V => (r, entries) :=
  fun _ _ => rfl

end Structural

/-! ## Admission -/

variable (f : Collection H → Except RuntimeError R)

theorem reads_ensure :
    Reads (do f (← get) : HeapOp H R) := .bind .get fun c => .lift (f c)

theorem reads_ensureSequence : Reads (ensureSequence call) := reads_ensure _

theorem reads_ensureHandle : Reads (ensureHandle call) := by
  refine .bind .get fun c => ?_
  split
  · exact reads_ensureSequence
  · exact .pure _

theorem reads_ensureFamily : Reads (ensureFamily call family) := by
  cases family <;> exact reads_ensure _

theorem reads_admitWrite : Reads (admitWrite call family) :=
  .bind (reads_ensureFamily family) fun _ => .bind (reads_ensure _) fun _ => reads_ensure _

theorem reads_readBuffer (e : RuntimeError) : Reads (readBuffer call e) := reads_ensure _

theorem reads_readSource (source : Source H) (e : RuntimeError) : Reads (readSource call source e) := by
  cases source with
  | target => exact reads_readBuffer e
  | other values => exact .lift _

theorem reads_keyToken (token : BitVec 64) : Reads (keyToken call token : HeapOp H (BitVec 64)) := by
  unfold keyToken
  split
  · exact .bind (reads_ensure _) fun _ => .lift _
  · exact .pure _

theorem reads_readInput (input : Source H) : Reads (readInput input) := by
  refine .bind .get fun c => ?_
  split
  · exact .pure _
  · exact .pure _
  · exact .throw _

theorem reads_ensureKeyMode (custom : Bool) : Reads (ensureKeyMode call custom) :=
  .bind (reads_ensure _) fun _ => .bind .get fun _ => .bind (.lift _) fun _ => .lift _

theorem exec_ensure : exec (do f (← get) : HeapOp H R) c = (f c, c) :=
  exec_lift (f c) c

theorem callbackMutable_ok (h : c.ensureCallbackMutable = .ok ()) : c.edit = none := by
  unfold Collection.ensureCallbackMutable require at h
  grind [Option.isNone_iff_eq_none]

theorem keyMutable_ok (h : c.ensureKeyMutable = .ok ()) : c.edit = none := by
  unfold Collection.ensureKeyMutable at h
  cases hcb : c.ensureCallbackMutable with
  | ok _ => exact callbackMutable_ok hcb
  | error e => simp [hcb, bind, Except.bind] at h

theorem execution_ok (h : c.ensureExecutionAllowed call = .ok ()) : c.quarantined = false := by
  cases hquar : c.quarantined with
  | false => rfl
  | true => simp [Collection.ensureExecutionAllowed, require, hquar, bind, Except.bind] at h

/-- A collection that may be changed has its values. -/
theorem Collection.WellFormed.attached (hc : c.WellFormed) (hexec : c.ensureExecutionAllowed call = .ok ())
    (hedit : c.edit = none) : c.payload.detached = false := by
  have hquar := execution_ok hexec
  cases hdet : c.payload.detached with
  | false => rfl
  | true =>
    have hlost := hc.lost hdet
    simp [hedit, hquar] at hlost

/-- What is asked of a collection before a structural change. -/
theorem sound_admit {view : Payload H → α} {rest : Unit → HeapOp H R} (hc : c.WellFormed)
    (hrest : c.payload.detached = false → c.edit = none → SoundFor view (rest ()) c) :
    SoundFor view (admitStructural call >>= rest) c := by
  unfold admitStructural
  simp only [bind_assoc]
  refine .read (reads_ensure _) hc fun _ hexec => ?_
  refine .read reads_ensureSequence hc fun _ _ => ?_
  refine .read (reads_ensure _) hc fun _ hstr => ?_
  simp only [ensureExecutionAllowed, ensureStructureMutable, exec_ensure] at hexec hstr
  have hedit := keyMutable_ok (Prod.mk.inj hstr).1
  exact hrest (hc.attached (Prod.mk.inj hexec).1 hedit) hedit

/-! ## Operations -/

theorem sound_sequencePush (hc : c.WellFormed) (value : Value H) : Sound (sequencePush call value) c :=
  sound_admit hc fun _ _ => .check hc fun _ _ => sound_withBufferMut hc _

theorem sound_sequencePop (hc : c.WellFormed) : Sound (sequencePop call) c :=
  sound_admit hc fun _ _ => sound_withBufferMut hc _

theorem sound_sequenceInsert (hc : c.WellFormed) (index : Nat) (value : Value H) :
    Sound (sequenceInsert call index value) c :=
  sound_admit hc fun _ _ => .check hc fun _ _ => .read (reads_readBuffer _) hc fun _ _ =>
    .check hc fun _ _ => sound_withBufferMut hc _

theorem sound_sequenceExtend (hc : c.WellFormed) (source : Source H) : Sound (sequenceExtend call source) c :=
  sound_admit hc fun _ _ => .read (reads_readSource _ _) hc fun _ _ => .check hc fun _ _ => .check hc fun _ _ =>
    .check hc fun _ _ => .read reads_ensureSequence hc fun _ _ => sound_withBufferMut hc _

theorem swapped_self (values : List (Value H)) (a : Nat) : swapped values a a = values := by
  unfold swapped
  split
  next x y hx hy =>
    obtain ⟨ha, rfl⟩ := List.getElem?_eq_some_iff.1 hx
    simp
  next => rfl

theorem sound_sequenceSwap (hc : c.WellFormed) (a b : Nat) :
    SoundFor Payload.arranged (sequenceSwap call a b) c := by
  refine sound_admit hc fun hatt _ => ?_
  refine .check hc fun _ _ => .check hc fun _ _ => .get_bind (.check hc fun revision hrev => ?_)
  split
  next s hpay =>
    have hs : s.detached = false := by simpa [Payload.detached, hpay] using hatt
    have hnext := nextRevision_some hrev
    refine .check hc fun _ _ => sound_set hc hatt hs ?_
    split
    · exact .inl (by omega)
    next hsame =>
      obtain rfl : a = b := not_not.1 hsame
      rw [swapped_self, ← hpay]
      exact .inr ⟨rfl, rfl⟩
  next => exact .throw hc

theorem okOr_ok {value : Option R} {a : R} (h : okOr value e = .ok a) : value = some a := by
  cases value with
  | none => cases h
  | some own =>
    cases h
    rfl

theorem readBuffer_ok {values : List (Value H)}
    (h : exec (readBuffer call e) c = (.ok values, c)) : c.buffer call.readable = some values := by
  unfold readBuffer at h
  rw [exec_ensure] at h
  exact okOr_ok (Prod.mk.inj h).1

theorem buffer_some {values : List (Value H)} (h : c.buffer readable = some values) :
    c.payload.values = values ∧ c.payload.size = values.length := by
  unfold Collection.buffer at h
  unfold Payload.values Payload.size
  grind

theorem sound_sequenceReverse (hc : c.WellFormed) : SoundFor Payload.arranged (sequenceReverse call) c := by
  refine sound_admit hc fun hatt _ => ?_
  refine .read (reads_readBuffer _) hc fun values hvals => ?_
  refine .check hc fun _ _ => .check hc fun _ _ => .check hc fun _ _ => .get_bind ?_
  refine .check hc fun revision hrev => ?_
  split
  next s hpay =>
    have hs : s.detached = false := by simpa [Payload.detached, hpay] using hatt
    have hnext := nextRevision_some hrev
    refine sound_set hc hatt hs ?_
    split
    · exact .inl (by omega)
    next hshort =>
      obtain ⟨hheld, -⟩ := buffer_some (readBuffer_ok hvals)
      have hsame : s.values.reverse = s.values := by
        rw [show s.values = values by simpa [Payload.values, hpay] using hheld]
        match values, hshort with
        | [], _ => rfl
        | [_], _ => rfl
        | _ :: _ :: _, hshort => simp at hshort
      rw [hsame, ← hpay]
      exact .inr ⟨rfl, rfl⟩
  next => exact .throw hc

/-- A closure that returns is counted, also when it fails. -/
theorem sound_withSequenceMut (hc : c.WellFormed) (access : SliceAccess H) :
    Sound (withSequenceMut call access) c ∧
      (access.result.isSome → SoundFor Payload.arranged (withSequenceMut call access) c) := by
  have hcntd : access.result.isSome → SoundFor Payload.arranged (withSequenceMut call access) c := by
    intro hret
    obtain ⟨result, hres⟩ := Option.isSome_iff_exists.1 hret
    refine sound_admit hc fun hatt _ => ?_
    refine .check hc fun _ _ => .check hc fun _ _ => .get_bind (.check hc fun revision hrev => ?_)
    split
    next s hpay =>
      have hs : s.detached = false := by simpa [Payload.detached, hpay] using hatt
      have hnext := nextRevision_some hrev
      refine .check hc fun _ _ => ?_
      simp only [hres]
      refine sound_bind (sound_set hc hatt hs (.inl (by omega))) fun _ _ hc' => ?_
      exact .check hc' fun _ _ => .pure hc' trivial
    next => exact .throw hc
  refine ⟨?_, hcntd⟩
  cases hres : access.result with
  | some result => exact sound_of_arranged (hcntd (by rw [hres]; rfl))
  | none =>
    -- what is left is a sequence of the same length
    refine sound_admit hc fun hatt _ => ?_
    refine .check hc fun _ _ => .check hc fun _ _ => .get_bind (.check hc fun revision hrev => ?_)
    split
    next s hpay =>
      have hs : s.detached = false := by simpa [Payload.detached, hpay] using hatt
      refine .check hc fun _ _ => ?_
      simp only [hres]
      refine sound_bind (sound_set hc hatt hs (.inr ⟨rfl, ?_⟩)) fun _ _ hc' => .pure hc' trivial
      simp [Collection.seen, Payload.shape, Payload.detached, Payload.size, Payload.keys, hpay,
        access.sameLength]
    next => exact .throw hc

theorem sound_sequenceRemove (hc : c.WellFormed) (index : Nat) : Sound (sequenceRemove call index) c :=
  sound_admit hc fun _ _ => sound_withBufferMut hc _

theorem sound_sequenceClear (hc : c.WellFormed) : Sound (sequenceClear call) c :=
  sound_admit hc fun _ _ => sound_withBufferMut hc _

theorem sound_sequenceTruncate (hc : c.WellFormed) (length : Nat) : Sound (sequenceTruncate call length) c :=
  sound_admit hc fun _ _ => .check hc fun _ _ => sound_withBufferMut hc _

theorem sound_sequenceSwapRemove (hc : c.WellFormed) (index : Nat) : Sound (sequenceSwapRemove call index) c :=
  sound_admit hc fun _ _ => sound_withBufferMut hc _

theorem sound_pushSequenceValue (hc : c.WellFormed) (value : Value H) : Sound (pushSequenceValue call value) c :=
  sound_admit hc fun _ _ => .check hc fun _ _ => .check hc fun _ _ => sound_withBufferMut hc _

theorem sound_bufferSet (hc : c.WellFormed) (family : Family) (index : Option Nat) (value : Value H) :
    Sound (bufferSet call family index value) c :=
  .read (reads_admitWrite family) hc fun _ _ => .check hc fun _ _ => sound_withBufferMut hc _

theorem sound_bufferFill (hc : c.WellFormed) (family : Family) (value : Value H) :
    Sound (bufferFill call family value) c := by
  refine .read (reads_admitWrite family) hc fun _ _ => .check hc fun _ _ => .read (reads_readBuffer _) hc fun _ _ => ?_
  refine .check hc fun _ _ => .check hc fun _ _ => ?_
  split
  · exact .check hc fun _ _ => .check hc fun _ _ => sound_withBufferMut hc _
  · exact .check hc fun _ _ => sound_withBufferMut hc _

theorem sound_bufferCopyFrom (hc : c.WellFormed) (family : Family) (source : Source H) :
    Sound (bufferCopyFrom call family source) c :=
  .read (reads_admitWrite family) hc fun _ _ => .read (reads_readBuffer _) hc fun _ _ =>
    .read (reads_readSource _ _) hc fun _ _ => .check hc fun _ _ => .check hc fun _ _ => .check hc fun _ _ =>
    .check hc fun _ _ => sound_withBufferMut hc _

theorem sound_bufferCopyWithin (hc : c.WellFormed) (family : Family) (start stop : Bound Nat) (destination : Nat) :
    Sound (bufferCopyWithin call family start stop destination) c :=
  .read (reads_admitWrite family) hc fun _ _ => .read (reads_readBuffer _) hc fun _ _ => .check hc fun _ _ =>
    .check hc fun _ _ => .check hc fun _ _ => sound_withBufferMut hc _

theorem sound_mapInsert (hc : c.WellFormed) (key : Option (BuiltKey H)) (value : Value H) :
    Sound (mapInsert call key value) c :=
  .read (reads_ensure _) hc fun _ _ => .get_bind (.check hc fun _ _ => .check hc fun _ _ =>
    .read (reads_ensure _) hc fun _ _ => .get_bind (sound_bind (sound_withMapMut hc (structural_insertEntry _))
      fun _ _ hc' => .pure hc' trivial))

theorem sound_mapRemove (hc : c.WellFormed) (key : Option (BuiltKey H)) : Sound (mapRemove call key) c :=
  .read (reads_ensure _) hc fun _ _ => .read (reads_ensure _) hc fun _ _ => .get_bind (.check hc fun _ _ =>
    .check hc fun _ _ => sound_withMapMut hc (structural_remove _))

theorem sound_mapClear (hc : c.WellFormed) : Sound (mapClear call) c :=
  .read (reads_ensure _) hc fun _ _ => .read (reads_ensure _) hc fun _ _ => sound_withMapMut hc (structural_clear _)

theorem sound_setInsert (hc : c.WellFormed) (key : Option (BuiltKey H)) : Sound (setInsert call key) c :=
  .read (reads_ensure _) hc fun _ _ => .get_bind (.check hc fun _ _ => .check hc fun _ _ =>
    .read (reads_ensure _) hc fun _ _ => .get_bind (sound_withSetMut hc (structural_insertEntry _)))

theorem sound_setRemove (hc : c.WellFormed) (key : Option (BuiltKey H)) : Sound (setRemove call key) c :=
  .read (reads_ensure _) hc fun _ _ => .read (reads_ensure _) hc fun _ _ => .get_bind (.check hc fun _ _ =>
    .check hc fun _ _ => sound_withSetMut hc (structural_remove _))

theorem sound_setClear (hc : c.WellFormed) : Sound (setClear call) c :=
  .read (reads_ensure _) hc fun _ _ => .read (reads_ensure _) hc fun _ _ => sound_withSetMut hc (structural_clear _)

theorem sound_customInsert (hc : c.WellFormed) (hash token : BitVec 64) (key value : Value H) :
    Sound (customInsert call hash token key value) c := by
  refine .read (reads_ensure _) hc fun _ _ => .get_bind (.check hc fun _ _ => .read (reads_ensure _) hc fun _ _ => ?_)
  refine .read (reads_ensureKeyMode _) hc fun _ _ => ?_
  refine .read (reads_keyToken token) hc fun _ _ => ?_
  split
  · exact sound_withMapMut hc (structural_insertCustom _)
  · exact sound_withSetMut hc (structural_insertCustom _)

theorem sound_customRemove (hc : c.WellFormed) (hash token : BitVec 64) : Sound (customRemove call hash token) c := by
  refine .read (reads_ensure _) hc fun _ _ => .get_bind (.check hc fun _ _ => .read (reads_ensure _) hc fun _ _ => ?_)
  refine .read (reads_ensureKeyMode _) hc fun _ _ => ?_
  dsimp only
  split
  · exact sound_withMapMut hc (structural_remove fun _ => .ok ())
  · exact sound_withSetMut hc (structural_remove fun _ => .ok ())

theorem sound_reserveCollection (hc : c.WellFormed) (additional : Nat) :
    Sound (reserveCollection call additional) c := by
  refine .read (reads_ensure _) hc fun _ _ => .get_bind (.check hc fun _ _ => ?_)
  refine .read reads_ensureHandle hc fun _ _ => .read (reads_ensure _) hc fun _ _ => .check hc fun _ _ => ?_
  dsimp only
  split
  · refine .read (reads_readBuffer _) hc fun _ _ => ?_
    split
    · exact sound_withBufferMut hc _
    · exact .pure hc trivial
  · split
    · exact sound_withMapMut hc (structural_same _)
    · exact .pure hc trivial
  · split
    · exact sound_withSetMut hc (structural_same _)
    · exact .pure hc trivial

/-- What takes the place of a storage is not detached. -/
theorem preparedPayload_attached {operation : PreparedCollectionCommit}
    {input : List (Value H)} {prepared : Payload H}
    (h : preparedPayload call operation payload input = .ok prepared) : prepared.detached = false := by
  cases operation with
  | replaceSequence =>
    simp only [preparedPayload] at h
    split at h
    · obtain ⟨_, -, hout⟩ := bind_ok.1 h
      simp only [Payload.detached, ← Except.ok.inj hout]
    · cases h
  | retain =>
    simp only [preparedPayload] at h
    obtain ⟨_, -, h⟩ := bind_ok.1 h
    obtain ⟨mask, -, h⟩ := bind_ok.1 h
    split at h
    · obtain ⟨_, -, h⟩ := bind_ok.1 h
      obtain ⟨_, -, hout⟩ := bind_ok.1 h
      simp only [Payload.detached, ← Except.ok.inj hout]
    · obtain ⟨_, -, h⟩ := bind_ok.1 h
      obtain ⟨_, -, h⟩ := bind_ok.1 h
      obtain ⟨table, -, hout⟩ := bind_ok.1 h
      simp only [Payload.detached, ← Except.ok.inj hout]
    · obtain ⟨_, -, h⟩ := bind_ok.1 h
      obtain ⟨_, -, h⟩ := bind_ok.1 h
      obtain ⟨table, -, hout⟩ := bind_ok.1 h
      simp only [Payload.detached, ← Except.ok.inj hout]
    · cases h

theorem sound_commit (hc : c.WellFormed) (operation : PreparedCollectionCommit) (input : Source H) :
    Sound (commitPreparedCollection call operation input) c := by
  refine .get_bind (.check hc fun _ _ => .read (reads_ensure _) hc fun _ hexec => ?_)
  refine .read (reads_readInput input) hc fun _ _ => .read reads_ensureHandle hc fun _ _ => ?_
  refine .read (reads_ensure _) hc fun _ hstr => .check hc fun _ _ => .check hc fun _ _ => .get_bind ?_
  refine .check hc fun _ hrev => .check hc fun _ hprep => .check hc fun _ _ => .check hc fun _ _ => ?_
  refine .check hc fun _ _ => ?_
  simp only [ensureExecutionAllowed, ensureStructureMutable, exec_ensure] at hexec hstr
  have hedit := keyMutable_ok (Prod.mk.inj hstr).1
  have hnext := nextRevision_some hrev
  exact sound_set hc (hc.attached (Prod.mk.inj hexec).1 hedit) (preparedPayload_attached hprep)
    (.inl (by omega))

/-- A change of what is around the values. -/
theorem sound_modify {f : Collection H → Collection H} (hwell : (f c).WellFormed)
    (hpay : (f c).payload = c.payload) (hrev : (f c).revision = c.revision) :
    Sound (modify f) c := by
  refine .of_exec rfl hwell (keeps_of (.inr ⟨hrev, by rw [hpay], ?_⟩)) fun _ _ => trivial
  unfold Collection.seen
  rw [hpay]

theorem sound_beginMutation (hc : c.WellFormed) : Sound (beginCollectionMutation call) c :=
  .read (reads_ensure _) hc fun _ _ => .get_bind (.check hc fun _ _ => .read (reads_ensure _) hc fun _ _ =>
    .check hc fun _ _ => .check hc fun _ _ => sound_modify ⟨hc.leased, hc.lost⟩ rfl rfl)

theorem sound_endMutation (hc : c.WellFormed) : Sound endCollectionMutation c :=
  sound_modify ⟨hc.leased, hc.lost⟩ rfl rfl

theorem sound_beginLookup (hc : c.WellFormed) : Sound (beginKeyLookup call) c :=
  .read (reads_ensure _) hc fun _ _ => .check hc fun _ _ => .get_bind (.check hc fun _ _ => .check hc fun _ _ =>
    sound_modify ⟨hc.leased, hc.lost⟩ rfl rfl)

theorem sound_endLookup (hc : c.WellFormed) : Sound endKeyLookup c := sound_modify ⟨hc.leased, hc.lost⟩ rfl rfl

/-- The values of a sequence are gone while it is edited. -/
theorem sound_beginEdit (hc : c.WellFormed) : Sound (beginEdit call) c := by
  refine sound_admit hc fun hatt _ => .read (reads_readBuffer _) hc fun _ _ => ?_
  refine .check hc fun _ _ => .check hc fun _ _ => .check hc fun _ _ => .check hc fun _ _ => .get_bind ?_
  refine .check hc fun revision hrev => ?_
  split
  next family s hpay =>
    have hnext := nextRevision_some hrev
    refine .of_exec rfl ⟨?_, fun _ => .inl rfl⟩ (.bump ?_) fun _ _ => trivial
    · rintro lease hlse
      cases hlse
      exact ⟨rfl, hnext⟩
    · unfold Collection.stamp
      rw [hatt]
      exact Nat.lt_succ_self _
  next => exact .throw hc

theorem sound_editValues (hc : c.WellFormed) (change : SequenceEdit H) : Sound (editValues change) c := by
  refine sound_modify ⟨fun lease hlse => ?_, fun hdet => ?_⟩ rfl rfl
  · obtain ⟨own, hown, rfl⟩ := Option.map_eq_some_iff.1 hlse
    exact hc.leased own hown
  · rw [Option.isSome_map]
    exact hc.lost hdet

theorem dropLease_cases (call : Call H) (c : Collection H) :
    c.dropLease call = c ∨ c.dropLease call = { c with edit := none, quarantined := true } ∨
    ∃ lease family, c.edit = some lease ∧ c.dropLease call =
      { c with payload := .sequence family ⟨lease.values, false⟩, revision := lease.revision, edit := none } := by
  unfold Collection.dropLease
  split
  · exact .inl rfl
  next lease family _ hedit hpay =>
    split
    · exact .inr (.inr ⟨lease, family, hedit, rfl⟩)
    · exact .inr (.inl rfl)
  · exact .inr (.inl rfl)

/-- The values come back under the next revision. -/
theorem sound_endEdit (hc : c.WellFormed) : Sound (endEdit call) c := by
  obtain hsame | hlost | ⟨lease, family, hedit, hback⟩ := dropLease_cases call c
  · exact sound_modify (by rwa [hsame]) (by rw [hsame]) (by rw [hsame])
  · exact sound_modify (by rw [hlost]; exact ⟨nofun, fun _ => .inr rfl⟩) (by rw [hlost]) (by rw [hlost])
  · obtain ⟨-, hrev⟩ := hc.leased lease hedit
    refine .of_exec (by rw [endEdit, exec_modify, hback]) ⟨fun _ h => ?_, fun h => ?_⟩ (keeps_of (.inl ?_))
      fun _ _ => trivial
    · cases h
    · cases h
    · dsimp only
      omega

/-! ## Runs -/

theorem sound_discard (h : Sound m c) : Sound (discard m) c :=
  h.bind fun _ _ hc' _ _ => .pure hc' trivial

theorem sound_perform (hc : c.WellFormed) (op : Op H) : Sound (op.perform call) c := by
  cases op with
  | push value => exact sound_sequencePush hc value
  | pop => exact sound_discard (sound_sequencePop hc)
  | insert index value => exact sound_sequenceInsert hc index value
  | remove index => exact sound_discard (sound_sequenceRemove hc index)
  | clear => exact sound_sequenceClear hc
  | truncate length => exact sound_sequenceTruncate hc length
  | swapRemove index => exact sound_discard (sound_sequenceSwapRemove hc index)
  | extend source => exact sound_sequenceExtend hc source
  | swap a b => exact sound_of_arranged (sound_sequenceSwap hc a b)
  | reverse => exact sound_of_arranged (sound_sequenceReverse hc)
  | pushValue value => exact sound_pushSequenceValue hc value
  | slice access => exact sound_discard (sound_withSequenceMut hc access).1
  | set family index value => exact sound_bufferSet hc family index value
  | fill family value => exact sound_bufferFill hc family value
  | copyFrom family source => exact sound_bufferCopyFrom hc family source
  | copyWithin family start stop destination => exact sound_bufferCopyWithin hc family start stop destination
  | mapInsert key value => exact sound_mapInsert hc key value
  | mapRemove key => exact sound_discard (sound_mapRemove hc key)
  | mapClear => exact sound_mapClear hc
  | setInsert key => exact sound_discard (sound_setInsert hc key)
  | setRemove key => exact sound_discard (sound_setRemove hc key)
  | setClear => exact sound_setClear hc
  | customInsert hash token key value => exact sound_customInsert hc hash token key value
  | customRemove hash token => exact sound_customRemove hc hash token
  | reserve additional => exact sound_reserveCollection hc additional
  | commit operation input => exact sound_commit hc operation input
  | beginMutation => exact sound_beginMutation hc
  | endMutation => exact sound_endMutation hc
  | beginLookup => exact sound_beginLookup hc
  | endLookup => exact sound_endLookup hc
  | beginEdit => exact sound_beginEdit hc
  | edit change => exact sound_editValues hc change
  | endEdit => exact sound_endEdit hc

/-- What an operation that rearranges a sequence shows at a stamp, it keeps. -/
def Op.Rearranges : Op H → Prop
  | swap _ _ | reverse => True
  | slice access => access.result.isSome
  | _ => False

theorem arranged_perform (hc : c.WellFormed) {op : Op H} (h : op.Rearranges) :
    SoundFor Payload.arranged (op.perform call) c := by
  cases op with
  | swap a b => exact sound_sequenceSwap hc a b
  | reverse => exact sound_sequenceReverse hc
  | slice access => exact ((sound_withSequenceMut hc access).2 h).bind fun _ _ hc' _ _ => .pure hc' trivial
  | _ => exact h.elim

/-- One operation. -/
theorem keeps_step (hc : c.WellFormed) (request : Call H × Op H) :
    (c.step request).WellFormed ∧ Keeps Collection.stamp (·.seen Payload.shape) c (c.step request) :=
  ⟨(sound_perform hc request.2).keeps, (sound_perform hc request.2).grows⟩

/-- Any operations, one after another. -/
theorem keeps_run (hc : c.WellFormed) (requests : List (Call H × Op H)) :
    (c.run requests).WellFormed ∧ Keeps Collection.stamp (·.seen Payload.shape) c (c.run requests) :=
  Keeps.foldl (I := Collection.WellFormed) (fun _ request hc => keeps_step hc request) requests c hc

end Kagari.Gc
