import Kagari.Gc.CollectionsSound

/-!
# Iterators over collections

`gc/iter.rs`: an iterator remembers the revision of its collection, and of a map or a set the keys. It advances as
long as it reads this revision. Items are built by the heap after they have been read, which may fail: the iterator
then stays where it is.

`Faithful` says what a reader expects of the answers, whatever happens to the collection in between; an iterator that
never answers that it is invalid is faithful (`iterator_faithful`).
-/

namespace Kagari.Gc

open Lib Lib.Stateful Kagari.Runtime List

variable {H : Type}

/-! ## Iterators -/

def invalidIter : RuntimeError := ⟨.scriptTrap, "invalid or structurally modified iterator"⟩

inductive PendingItem (H : Type) where
  | value (value : Value H)
  | pair (key value : Value H)

structure NativeIter (H : Type) where
  position : Nat
  /-- Of an unordered table, read once. -/
  keys : List (BuiltKey H)
  revision : Nat

/-- `new_iter`. -/
def Collection.newIter (c : Collection H) (call : Call H) : Except RuntimeError (NativeIter H) := do
  c.ensureExecutionAllowed call
  require call.accepted invalidIter
  let revision ← okOr (c.collectionRevision call.readable) invalidIter
  require call.reserve (resourceLimit "iterator keys")
  let keys := match c.payload with
    | .map _ entries => call.iteration.order entries.keys
    | .set _ entries => call.iteration.order entries.keys
    | .sequence _ _ => []
  call.change
  return ⟨0, keys, revision⟩

namespace NativeIter

/-- What stands at the position. -/
def preview (iter : NativeIter H) (c : Collection H) (readable : Bool) : Option (PendingItem H) :=
  match c.payload with
  | .sequence _ _ => do return .value (← (← c.buffer readable)[iter.position]?)
  | .map _ entries => do
    let key ← iter.keys[iter.position]?
    return .pair key.key.value (← entries.get key)
  | .set _ entries => do return .value (← entries.stored (← iter.keys[iter.position]?)).key.value

/-- `position.checked_add(1)`, of a `u128`. -/
def nextPosition (iter : NativeIter H) : Option Nat :=
  if iter.position + 1 < 2 ^ 128 then some (iter.position + 1) else none

/-- `advance_iter_with`; `publish` builds the item, roots it and finishes the call. -/
def advance (c : Collection H) (call : Call H) (publish : Option (PendingItem H) → Except RuntimeError Unit) :
    Stateful (NativeIter H) RuntimeError (Option (PendingItem H)) := do
  c.ensureExecutionAllowed call
  require call.accepted invalidIter
  let iter ← get
  require (c.collectionRevision call.readable = some iter.revision) invalidIter
  let item := iter.preview c call.readable
  let position ← okOr iter.nextPosition invalidIter
  publish item
  require (!call.borrowed) storageBorrowed
  if item.isSome then set { iter with position }
  return item

end NativeIter

/-! ## What is observed -/

inductive Event (H : Type) where
  | change (request : Call H × Op H)
  | advance (call : Call H) (publish : Option (PendingItem H) → Except RuntimeError Unit)

/-- An advance, the collection at that moment, and the answer. -/
structure Observation (H : Type) where
  collection : Collection H
  call : Call H
  publish : Option (PendingItem H) → Except RuntimeError Unit
  result : Except RuntimeError (Option (PendingItem H))

def observe (c : Collection H) (iter : NativeIter H) : List (Event H) → List (Observation H)
  | [] => []
  | .change request :: events => observe (c.step request) iter events
  | .advance call publish :: events =>
    let (result, iter) := exec (NativeIter.advance c call publish) iter
    ⟨c, call, publish, result⟩ :: observe c iter events

/-- The element at an index, or under the key at an index. -/
def elementAt (keys : List (BuiltKey H)) (c : Collection H) (k : Nat) : Option (PendingItem H) :=
  match c.payload with
  | .sequence _ s => s.values[k]?.map .value
  | .map _ entries => do
    let key ← keys[k]?
    return .pair key.key.value (← entries.get key)
  | .set _ _ => keys[k]?.map fun key => .value key.key.value

/-- An advance to the item at `k` is refused neither by its call nor by who builds the item, and reads the revision. -/
structure Grants (c : Collection H) (call : Call H) (publish : Option (PendingItem H) → Except RuntimeError Unit)
    (revision k : Nat) (item : Option (PendingItem H)) : Prop where
  execution : c.ensureExecutionAllowed call = .ok ()
  accepted : call.accepted = true
  revision : c.collectionRevision call.readable = some revision
  position : k + 1 < 2 ^ 128
  publish : publish item = .ok ()
  borrowed : call.borrowed = false

/-- The answers from index `k` on: one element after another, each as it is at that moment, and the end after the
last one. Only an advance that is refused fails. -/
def Faithful (size revision : Nat) (keys : List (BuiltKey H)) : Nat → List (Observation H) → Prop
  | _, [] => True
  | k, o :: rest =>
    match o.result with
    | .error _ => ¬Grants o.collection o.call o.publish revision k (elementAt keys o.collection k) ∧
      Faithful size revision keys k rest
    | .ok none => k = size ∧ Faithful size revision keys k rest
    | .ok (some item) =>
      k < size ∧ elementAt keys o.collection k = some item ∧ Faithful size revision keys (k + 1) rest

/-! ## Equal revisions -/

variable {c c' : Collection H} {call : Call H} {iter : NativeIter H}

/-- At equal revisions the same is seen. -/
theorem seen_of_revision {α : Type} {view : Payload H → α} (h : Keeps Collection.stamp (·.seen view) c c')
    {readable readable' : Bool} {r : Nat} (hr : c.collectionRevision readable = some r)
    (hr' : c'.collectionRevision readable' = some r) : view c'.payload = view c.payload := by
  obtain ⟨-, hatt, hrev⟩ := collectionRevision_some hr
  obtain ⟨-, hatt', hrev'⟩ := collectionRevision_some hr'
  have hsame : c'.stamp = c.stamp := by
    unfold Collection.stamp
    rw [hatt, hatt', hrev, hrev']
  have hseen := h.same hsame
  unfold Collection.seen at hseen
  rw [hatt, hatt'] at hseen
  exact Option.some.inj hseen

/-! ## Advancing -/

theorem newIter_ok (h : c.newIter call = .ok iter) : iter.position = 0 ∧ iter.keys.Perm c.payload.keys ∧
    c.collectionRevision call.readable = some iter.revision := by
  unfold Collection.newIter at h
  obtain ⟨_, -, h⟩ := bind_ok.1 h
  obtain ⟨_, -, h⟩ := bind_ok.1 h
  obtain ⟨revision, hrev, h⟩ := bind_ok.1 h
  obtain ⟨_, -, h⟩ := bind_ok.1 h
  obtain ⟨_, -, h⟩ := bind_ok.1 h
  cases h
  refine ⟨rfl, ?_, okOr_ok hrev⟩
  cases hpay : c.payload with
  | sequence family s => exact .refl _
  | map builtin entries => exact call.iteration.perm _
  | set builtin entries => exact call.iteration.perm _

/-- An advance answers what it has read, or nothing happens because it is refused. -/
theorem advance_cases (c : Collection H) (call : Call H) (publish : Option (PendingItem H) → Except RuntimeError Unit)
    (iter : NativeIter H) :
    (∃ e, exec (NativeIter.advance c call publish) iter = (.error e, iter) ∧
      ¬Grants c call publish iter.revision iter.position (iter.preview c call.readable)) ∨
    c.collectionRevision call.readable = some iter.revision ∧
      exec (NativeIter.advance c call publish) iter = (.ok (iter.preview c call.readable),
        if (iter.preview c call.readable).isSome then { iter with position := iter.position + 1 } else iter) := by
  unfold NativeIter.advance
  obtain ⟨e, hno, hstop⟩ | ⟨_, -, hgo⟩ := exec_check (c.ensureExecutionAllowed call) _ iter
  · exact .inl ⟨e, hstop, fun hg => by simp [hg.execution] at hno⟩
  rw [hgo]
  obtain ⟨e, hno, hstop⟩ | ⟨_, -, hgo⟩ := exec_check (require call.accepted invalidIter) _ iter
  · exact .inl ⟨e, hstop, fun hg => by simp [require, hg.accepted] at hno⟩
  rw [hgo, exec_get_bind]
  obtain ⟨e, hno, hstop⟩ | ⟨_, hrev, hgo⟩ := exec_check
    (require (c.collectionRevision call.readable = some iter.revision) invalidIter) _ iter
  · exact .inl ⟨e, hstop, fun hg => by simp [require, hg.revision] at hno⟩
  rw [hgo]
  obtain ⟨e, hno, hstop⟩ | ⟨position, hpos, hgo⟩ := exec_check (okOr iter.nextPosition invalidIter) _ iter
  · exact .inl ⟨e, hstop, fun hg => by rw [NativeIter.nextPosition, if_pos hg.position] at hno; cases hno⟩
  rw [hgo]
  obtain ⟨e, hno, hstop⟩ | ⟨_, -, hgo⟩ := exec_check (publish (iter.preview c call.readable)) _ iter
  · exact .inl ⟨e, hstop, fun hg => by simp [hg.publish] at hno⟩
  rw [hgo]
  obtain ⟨e, hno, hstop⟩ | ⟨_, -, hgo⟩ := exec_check (require (!call.borrowed) storageBorrowed) _ iter
  · exact .inl ⟨e, hstop, fun hg => by simp [require, hg.borrowed] at hno⟩
  rw [hgo]
  have hnext : position = iter.position + 1 := by
    have hsome := okOr_ok hpos
    unfold NativeIter.nextPosition at hsome
    grind
  refine .inr ⟨by simpa [require] using hrev, ?_⟩
  rw [hnext]
  split <;> rfl

/-! ## Elements -/

/-- A stored key is found under itself. -/
theorem find_mem (t : HashTable H V) {key : BuiltKey H} (h : key ∈ t.keys) :
    ∃ value, t.storage.find key = some (key, value) := by
  obtain ⟨e, hmem, rfl⟩ := mem_map.1 h
  obtain ⟨found, hfind⟩ : ∃ found, t.storage.find e.1 = some found :=
    Option.isSome_iff_exists.1 (find?_isSome.2 ⟨e, hmem, eq_iff.2 rfl⟩)
  have hsame : found.1.identity = e.1.identity :=
    eq_iff.1 (find?_some (p := fun own : BuiltKey H × V => own.1.key.eq e.1.key) hfind)
  have hkey : found.1 = e.1 := inj_on_of_nodup_map t.consistent.distinct
    (mem_map_of_mem (mem_of_find?_eq_some hfind)) h hsame
  exact ⟨found.2, by rw [hfind, ← hkey]⟩

/-- At the revision of the iterator the position leads to the element, or behind the last one. -/
theorem preview_eq (h : c.collectionRevision call.readable = some iter.revision)
    (hkeys : iter.keys.Perm c.payload.keys) :
    iter.preview c call.readable = elementAt iter.keys c iter.position ∧
      ((elementAt iter.keys c iter.position).isSome ↔ iter.position < c.payload.size) := by
  obtain ⟨hrdbl, hatt, -⟩ := collectionRevision_some h
  unfold NativeIter.preview elementAt
  cases hpay : c.payload with
  | sequence family s =>
    rw [hpay] at hatt
    have hbuffer : c.buffer call.readable = some s.values := by
      unfold Collection.buffer
      rw [hpay, hrdbl]
      simp [show s.detached = false from hatt]
    rw [hbuffer]
    refine ⟨?_, by simp [Payload.size]⟩
    cases hval : s.values[iter.position]? <;> simp [hval]
  | map builtin entries =>
    refine ⟨rfl, ?_⟩
    rw [hpay] at hkeys
    have hsize : iter.keys.length = entries.len := hkeys.length_eq.trans entries.keys_length
    cases hkey : iter.keys[iter.position]? with
    | none =>
      have hlast := List.getElem?_eq_none_iff.1 hkey
      simp only [Payload.size, Option.isSome_iff_exists]
      grind
    | some key =>
      obtain ⟨hlt, -⟩ := List.getElem?_eq_some_iff.1 hkey
      obtain ⟨value, hfind⟩ := find_mem entries (hkeys.mem_iff.1 (List.mem_of_getElem? hkey))
      have hget : entries.get key = some value := by
        unfold HashTable.get HashStorage.get
        rw [hfind]
        rfl
      simp only [Payload.size, ← hsize, hlt, iff_true]
      simp [hget]
  | set builtin entries =>
    rw [hpay] at hkeys
    have hsize : iter.keys.length = entries.len := hkeys.length_eq.trans entries.keys_length
    refine ⟨?_, by simp [Payload.size, ← hsize]⟩
    cases hkey : iter.keys[iter.position]? with
    | none => rfl
    | some key =>
      obtain ⟨value, hfind⟩ := find_mem entries (hkeys.mem_iff.1 (List.mem_of_getElem? hkey))
      have hstor : entries.stored key = some key := by
        unfold HashTable.stored
        rw [hfind]
        rfl
      simp [hstor]

/-! ## Faithful answers -/

/-- From any point of a traversal: the collection is as it was captured whenever it is read. -/
theorem faithful_from {captured : Collection H} (events : List (Event H)) : ∀ {c : Collection H} {iter : NativeIter H},
    c.WellFormed → Keeps Collection.stamp (·.seen Payload.shape) captured c →
    captured.collectionRevision true = some iter.revision → iter.keys.Perm captured.payload.keys →
    iter.position ≤ captured.payload.size →
    (∀ o ∈ observe c iter events, o.result ≠ .error invalidIter) →
    Faithful captured.payload.size iter.revision iter.keys iter.position (observe c iter events) := by
  induction events with
  | nil => exact fun _ _ _ _ _ _ => trivial
  | cons event events ih =>
    intro c iter hc hkp hrev hkeys hpos hvld
    cases event with
    | change request =>
      obtain ⟨hc', hkp'⟩ := keeps_step hc request
      exact ih hc' (hkp.trans hkp') hrev hkeys hpos hvld
    | advance call publish =>
      simp only [observe] at hvld ⊢
      -- wherever the revision is read, the position leads to the element
      have helt (hread : c.collectionRevision call.readable = some iter.revision) :
          iter.preview c call.readable = elementAt iter.keys c iter.position ∧
            ((elementAt iter.keys c iter.position).isSome ↔ iter.position < captured.payload.size) := by
        have hshp : c.payload.shape = captured.payload.shape := seen_of_revision hkp hrev hread
        obtain ⟨hsize, hsame⟩ := Prod.mk.inj hshp
        rw [← hsize]
        exact preview_eq hread (by rw [hsame]; exact hkeys)
      obtain ⟨e, hstop, hrefd⟩ | ⟨hread, hgo⟩ := advance_cases c call publish iter
      · rw [hstop] at hvld ⊢
        refine ⟨fun hgrants => hrefd ?_, ih hc hkp hrev hkeys hpos fun o ho =>
          hvld o (mem_cons_of_mem _ ho)⟩
        rw [(helt hgrants.revision).1]
        exact hgrants
      · rw [hgo] at hvld ⊢
        obtain ⟨hpreview, hsome⟩ := helt hread
        rw [hpreview] at hvld ⊢
        cases hitem : elementAt iter.keys c iter.position with
        | none =>
          rw [hitem] at hsome hvld
          refine ⟨?_, ih hc hkp hrev hkeys hpos fun o ho => hvld o (mem_cons_of_mem _ ho)⟩
          simp only [Option.isSome_none, Bool.false_eq_true, false_iff] at hsome
          omega
        | some item =>
          rw [hitem] at hsome hvld
          have hlt := hsome.1 rfl
          have hrest := @ih c { iter with position := iter.position + 1 } hc hkp hrev hkeys hlt
            fun o ho => hvld o (mem_cons_of_mem _ ho)
          exact ⟨hlt, hitem, hrest⟩

/-! ## Iterators over a collection in use -/

/-- What becomes of an allocated collection. -/
def Collection.InUse (c : Collection H) : Prop :=
  ∃ (payload : Payload H) (requests : List (Call H × Op H)),
    payload.detached = false ∧ c = (Collection.new payload).run requests

theorem Collection.InUse.wellFormed (h : c.InUse) : c.WellFormed := by
  obtain ⟨payload, requests, hfr, rfl⟩ := h
  exact (keeps_run (wellFormed_new hfr) requests).1

/-- Once an edit has the values, the revision of before is not read again. -/
theorem revision_of_edit (hc : c.WellFormed) {requests : List (Call H × Op H)} (hedit : (c.run requests).edit.isSome)
    (later : List (Call H × Op H)) {readable : Bool} {r : Nat}
    (hr : ((c.run requests).run later).collectionRevision readable = some r) : c.revision < r := by
  obtain ⟨hedited, hbef⟩ := keeps_run hc requests
  obtain ⟨lease, hlse⟩ := Option.isSome_iff_exists.1 hedit
  obtain ⟨hdet, -⟩ := hedited.leased lease hlse
  obtain ⟨-, hatt, rfl⟩ := collectionRevision_some hr
  have hstamps := hbef.grows
  have hlat := (keeps_run hedited later).2.grows
  unfold Collection.stamp at hstamps hlat
  rw [hdet, Bool.toNat_true] at hstamps hlat
  rw [hatt, Bool.toNat_false] at hlat
  omega

/-- An iterator that is still accepted is faithful. For a collection in use and an iterator over it:

1. whenever the revision of the iterator is read, length and keys are those of its start;
2. an iterator that never answers that it is invalid yields every index in order, or every key once, with the
   element of that moment, and ends after the last one: no advance fails that nothing refuses;
3. an operation that leaves the revision that was read, whether it returns or fails, has kept length and keys, and
   what a sequence holds if it swaps, reverses or writes a slice; after an edit this revision is never read again. -/
theorem iterator_faithful (hc : c.InUse) (hnew : c.newIter call = .ok iter) :
    (∀ requests readable, (c.run requests).collectionRevision readable = some iter.revision →
      (c.run requests).payload.shape = c.payload.shape) ∧
    (iter.keys.Perm c.payload.keys ∧ Distinct iter.keys ∧
      ∀ events, (∀ o ∈ observe c iter events, o.result ≠ .error invalidIter) →
        Faithful c.payload.size iter.revision iter.keys 0 (observe c iter events)) ∧
    (∀ request readable r, c.collectionRevision readable = some r →
      ∀ readable', (c.step request).collectionRevision readable' = some r →
        (c.step request).payload.shape = c.payload.shape ∧
        (request.2.Rearranges → (c.step request).payload.values = c.payload.values)) ∧
    ∀ requests later readable r, (c.run requests).edit.isSome →
      ((c.run requests).run later).collectionRevision readable = some r → c.revision < r := by
  have hwell := hc.wellFormed
  obtain ⟨hst, hkeys, hrev⟩ := newIter_ok hnew
  refine ⟨fun requests readable hread => ?_, ⟨hkeys, ?_, fun events hvld => ?_⟩,
    fun request readable r hr readable' hr' => ⟨?_, fun hrearr => ?_⟩, fun _ later _ _ hedit hr => ?_⟩
  · exact seen_of_revision (keeps_run hwell requests).2 hrev hread
  · have hdist : Distinct c.payload.keys := by
      cases c.payload with
      | sequence family s => exact List.nodup_nil
      | map builtin entries => exact entries.consistent.distinct
      | set builtin entries => exact entries.consistent.distinct
    exact (hkeys.map _).nodup_iff.2 hdist
  · have hread : c.collectionRevision true = some iter.revision := by
      rwa [(collectionRevision_some hrev).1] at hrev
    rw [← hst]
    exact faithful_from events hwell (.refl c) hread hkeys (by omega) hvld
  · exact seen_of_revision (keeps_step hwell request).2 hr hr'
  · have harranged := (@arranged_perform H c request.1 hwell request.2 hrearr).grows
    have hsame : (c.step request).payload.arranged = c.payload.arranged := seen_of_revision harranged hr hr'
    exact (Prod.mk.inj hsame).2
  · exact revision_of_edit hwell hedit later hr

/-- A heap that refuses nothing. -/
def Call.granted : Call Empty :=
  ⟨true, .ok (), true, .ok (), .ok (), false, .ok (), true, true, fun _ => ⟨true, true, none⟩, 0, fun _ => .ok (),
    some 0, ⟨id, fun _ => .refl _⟩⟩

/-- A vector of two elements, of which the second is written while it is gone through. -/
theorem iterator_faithful_pair :
    let c : Collection Empty := .new (.sequence .nominal ⟨[.i32 1, .i32 2], false⟩)
    let events : List (Event Empty) := [.advance .granted fun _ => .ok (),
      .change (.granted, .set .nominal (some 1) (.i32 7)), .advance .granted fun _ => .ok
        (), .advance .granted fun _ => .ok ()]
    c.newIter .granted = .ok ⟨0, [], 0⟩ ∧ (observe c ⟨0, [], 0⟩ events).map Observation.result =
        [.ok (some (.value (.i32 1))), .ok (some (.value (.i32 7))), .ok none] ∧
      Faithful 2 0 [] 0 (observe c ⟨0, [], 0⟩ events) := by
  intro c events
  have hnew : c.newIter .granted = .ok ⟨0, [], 0⟩ := rfl
  have hanswers : (observe c ⟨0, [], 0⟩ events).map Observation.result =
      [.ok (some (.value (.i32 1))), .ok (some (.value (.i32 7))), .ok none] := rfl
  refine ⟨hnew, hanswers, (iterator_faithful (c := c) ⟨_, [], rfl, rfl⟩ hnew).2.1.2.2 events fun o ho hstop => ?_⟩
  have hans : o.result ∈ (observe c ⟨0, [], 0⟩ events).map Observation.result := List.mem_map_of_mem ho
  rw [hanswers, hstop] at hans
  simp at hans

end Kagari.Gc
