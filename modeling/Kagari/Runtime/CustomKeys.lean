import Mathlib.Data.List.AList
import Kagari.Runtime.Numeric

/-!
# Tables with custom keys

A script hashes and compares custom keys, outside any table. A table keeps the hash of such a key with a token, and
beside its entries the tokens of each hash (`native/hash_storage.rs`, `gc/custom_keys.rs`).

A hash table is the list of its entries in the order in which they were inserted. Whether memory can be reserved is
a parameter of the operations. `none` stands for the panic of an `expect`.

`Mirrors` says that the tokens are those of the stored keys; it holds through any run (`custom_buckets`).
-/

namespace Kagari.Runtime

open List

variable {H V : Type}

/-- A key as it is built: a custom key has no parts. -/
structure BuiltKey (H : Type) where
  key : MapKey H
  plain : key.custom.isSome → key.parts.asSlice = []

namespace BuiltKey

def custom (hash token : BitVec 64) (value : Value H) : BuiltKey H :=
  ⟨⟨.empty, value, some (hash, token)⟩, fun _ => rfl⟩

/-- What equality of keys compares. -/
def identity (key : BuiltKey H) : Option (BitVec 64 × BitVec 64) × List KeyPart :=
  (key.key.custom, key.key.parts.asSlice)

end BuiltKey

inductive TryReserveError where
  | refused
deriving DecidableEq

/-- A `Vec<i64>` of tokens. -/
structure TokenBucket where
  tokens : List (BitVec 64)
  capacity : Nat

namespace TokenBucket

/-- Room for one more; `grow` is what an allocation gives beyond that, and `none` when it fails. -/
def tryReserve (bucket : TokenBucket) (grow : Option Nat) : Except TryReserveError Unit × TokenBucket :=
  if bucket.tokens.length + 1 ≤ bucket.capacity then (.ok (), bucket)
  else match grow with
    | none => (.error .refused, bucket)
    | some extra => (.ok (), { bucket with capacity := bucket.tokens.length + 1 + extra })

def push (bucket : TokenBucket) (token : BitVec 64) : TokenBucket :=
  ⟨bucket.tokens ++ [token], max bucket.capacity (bucket.tokens.length + 1)⟩

end TokenBucket

abbrev Buckets := AList fun _ : BitVec 64 => TokenBucket

structure CustomBuckets where
  entries : Buckets
  /-- Committed capacity of the token vectors. -/
  tokenBytes : Nat

namespace CustomBuckets

def prepare (b : CustomBuckets) (key : MapKey H) (room : Bool) (grow : Option Nat) :
    Except TryReserveError Unit × CustomBuckets :=
  match key.custom with
  | none => (.ok (), b)
  | some (hash, _) =>
    if !room then (.error .refused, b)
    else
      let before := (b.entries.lookup hash).getD ⟨[], 0⟩
      let (result, bucket) := before.tryReserve grow
      (result, ⟨b.entries.insert hash bucket, b.tokenBytes + (bucket.capacity - before.capacity) * 8⟩)

def insert (b : CustomBuckets) (key : MapKey H) : Option CustomBuckets :=
  match key.custom with
  | none => some b
  | some (hash, token) => (b.entries.lookup hash).map fun bucket =>
    { b with entries := b.entries.insert hash (bucket.push token) }

def remove (b : CustomBuckets) (key : MapKey H) : Option CustomBuckets :=
  match key.custom with
  | none => some b
  | some (hash, token) => (b.entries.lookup hash).map fun bucket =>
    let bucket := { bucket with tokens := bucket.tokens.filter (· ≠ token) }
    if bucket.tokens = [] then ⟨b.entries.erase hash, b.tokenBytes - bucket.capacity * 8⟩
    else { b with entries := b.entries.insert hash bucket }

def clear (_ : CustomBuckets) : CustomBuckets := ⟨∅, 0⟩

def tokens (b : CustomBuckets) (hash : BitVec 64) : List (BitVec 64) :=
  ((b.entries.lookup hash).map (·.tokens)).getD []

end CustomBuckets

/-- What an insertion is granted: room in the table, in the index, and in a bucket. -/
structure Rooms where
  entries : Bool
  buckets : Bool
  grow : Option Nat

/-- `HashMapStorage`, and with no values `HashSetStorage`. -/
structure HashStorage (H V : Type) where
  entries : List (BuiltKey H × V)
  buckets : CustomBuckets

namespace HashStorage

def new : HashStorage H V := ⟨[], ∅, 0⟩

def find (s : HashStorage H V) (key : BuiltKey H) : Option (BuiltKey H × V) := s.entries.find? (·.1.key.eq key.key)

def get (s : HashStorage H V) (key : BuiltKey H) : Option V := (s.find key).map (·.2)

/-- A key that is stored stays, with the new value. -/
def replace (s : HashStorage H V) (key : BuiltKey H) (value : V) : HashStorage H V :=
  { s with entries := s.entries.map fun e => if e.1.key.eq key.key then (e.1, value) else e }

def insert (s : HashStorage H V) (key : BuiltKey H) (value : V) (rooms : Rooms) :
    Option (Except TryReserveError (Option V) × HashStorage H V) :=
  match s.get key with
  | some old => some (.ok (some old), s.replace key value)
  | none =>
    if !rooms.entries then some (.error .refused, s)
    else match s.buckets.prepare key.key rooms.buckets rooms.grow with
      | (.error e, buckets) => some (.error e, { s with buckets })
      | (.ok (), buckets) =>
        (buckets.insert key.key).map fun buckets => (.ok none, ⟨s.entries ++ [(key, value)], buckets⟩)

def remove (s : HashStorage H V) (key : BuiltKey H) : Option (Option V × HashStorage H V) :=
  match s.get key with
  | none => some (none, s)
  | some value => (s.buckets.remove key.key).map fun buckets =>
    (some value, ⟨s.entries.filter fun e => !e.1.key.eq key.key, buckets⟩)

def clear (s : HashStorage H V) : HashStorage H V := ⟨[], s.buckets.clear⟩

/-- The token at an index of a bucket, with the key that is stored under it. -/
def candidate (s : HashStorage H V) (hash : BitVec 64) (index : Nat) : Option (Option (BitVec 64 × Value H)) :=
  match (s.buckets.tokens hash)[index]? with
  | none => some none
  | some token => (s.find (.custom hash token .unit)).map fun e => some (token, e.1.key.value)

end HashStorage

/-! ## Operations of a script -/

def invalidKeyOperation : RuntimeError := ⟨.scriptTrap, "invalid custom key operation"⟩

/-- A table, with the counter of tokens of its heap. -/
structure KeyTable (H V : Type) where
  storage : HashStorage H V
  nextKeyToken : BitVec 64

/-- What the heap says before a table is written: to the operation itself, to a change of structure, and to the
growth of the table; then whether there is room for one more entry. -/
structure KeyChecks where
  admitted : Except RuntimeError Unit
  structural : Except RuntimeError Unit
  opened : Except RuntimeError Unit
  reserved : Bool

namespace KeyTable

/-- `checked_add(1)` on an `i64`. -/
def checkedToken (token : BitVec 64) : Option (BitVec 64) := if token.toInt = 2 ^ 63 - 1 then none else some (token + 1)

/-- The tail of `custom_insert` for a new key. -/
def insertNew (t : KeyTable H V) (checks : KeyChecks) (key : BuiltKey H) (value : V) (rooms : Rooms) :
    Option (Except RuntimeError Unit × KeyTable H V) :=
  match checks.opened with
  | .error e => some (.error e, t)
  | .ok () =>
    if !checks.reserved then some (.error (resourceLimit "allocation capacity"), t)
    else (t.storage.insert key value rooms).map fun
      | (.error _, storage) => (.error (resourceLimit "allocation capacity"), { t with storage })
      | (.ok _, storage) => (.ok (), { t with storage })

/-- The token -1 asks for a new one. -/
def customInsert (t : KeyTable H V) (checks : KeyChecks) (hash token : BitVec 64) (key : Value H) (value : V)
    (rooms : Rooms) : Option (Except RuntimeError Unit × KeyTable H V) :=
  match checks.admitted with
  | .error e => some (.error e, t)
  | .ok () =>
    if token = -1 then
      match checks.structural with
      | .error e => some (.error e, t)
      | .ok () =>
        match checkedToken t.nextKeyToken with
        | none => some (.error invalidKeyOperation, t)
        | some next =>
          insertNew { t with nextKeyToken := next } checks (.custom hash t.nextKeyToken key) value rooms
    else
      match checks.opened with
      | .error e => some (.error e, t)
      | .ok () =>
        match t.storage.get (.custom hash token key) with
        | none => some (.error invalidKeyOperation, t)
        | some _ => some (.ok (), { t with storage := t.storage.replace (.custom hash token key) value })

def customRemove (t : KeyTable H V) (checks : KeyChecks) (hash token : BitVec 64) :
    Option (Except RuntimeError Unit × KeyTable H V) :=
  match checks.admitted, checks.opened with
  | .error e, _ => some (.error e, t)
  | .ok (), .error e => some (.error e, t)
  | .ok (), .ok () => (t.storage.remove (.custom hash token .unit)).map fun (_, storage) => (.ok (), { t with storage })

end KeyTable

inductive KeyOp (H V : Type) where
  | insert (key : BuiltKey H) (value : V) (rooms : Rooms)
  | remove (key : BuiltKey H)
  | clear
  | customInsert (checks : KeyChecks) (hash token : BitVec 64) (key : Value H) (value : V) (rooms : Rooms)
  | customRemove (checks : KeyChecks) (hash token : BitVec 64)
  /-- Another table of the heap takes a token. -/
  | elsewhere

namespace KeyTable

def step (t : KeyTable H V) : KeyOp H V → Option (KeyTable H V)
  | .insert key value rooms => (t.storage.insert key value rooms).map fun (_, storage) => { t with storage }
  | .remove key => (t.storage.remove key).map fun (_, storage) => { t with storage }
  | .clear => some { t with storage := t.storage.clear }
  | .customInsert checks hash token key value rooms =>
    (t.customInsert checks hash token key value rooms).map (·.2)
  | .customRemove checks hash token => (t.customRemove checks hash token).map (·.2)
  | .elsewhere => some { t with nextKeyToken := (checkedToken t.nextKeyToken).getD t.nextKeyToken }

def run (ops : List (KeyOp H V)) : Option (KeyTable H V) := ops.foldlM step ⟨.new, 0⟩

end KeyTable

/-! ## The index of the tokens -/

/-- The token of a custom key with a hash. -/
def BuiltKey.tokenIn (hash : BitVec 64) (key : BuiltKey H) : Option (BitVec 64) :=
  match key.key.custom with
  | some (own, token) => if own = hash then some token else none
  | none => none

/-- What the vectors of an index have reserved. -/
def bucketCapacity (entries : Buckets) : Nat := (entries.entries.map (·.2.capacity)).sum

/-- The index lists the tokens of the stored keys, in their order, and counts what its vectors reserve. -/
structure Mirrors (keys : List (BuiltKey H)) (b : CustomBuckets) : Prop where
  tokens : ∀ hash, b.tokens hash = keys.filterMap (·.tokenIn hash)
  bytes : b.tokenBytes = 8 * bucketCapacity b.entries

section Index

variable {keys : List (BuiltKey H)} {b : CustomBuckets} {key other : BuiltKey H} {hash token : BitVec 64}

theorem bucketCapacity_erase (entries : Buckets) (hash : BitVec 64) :
    bucketCapacity (entries.erase hash) + ((entries.lookup hash).map (·.capacity)).getD 0 =
      bucketCapacity entries := by
  have hlist : ∀ l : List (Sigma fun _ : BitVec 64 => TokenBucket),
      ((l.kerase hash).map (·.2.capacity)).sum + ((l.dlookup hash).map (·.capacity)).getD 0 =
        (l.map (·.2.capacity)).sum := by
    intro l
    induction l with
    | nil => rfl
    | cons e l ih =>
      obtain ⟨own, bucket⟩ := e
      by_cases hown : hash = own
      · subst hown
        simp [kerase_cons_eq, Nat.add_comm]
      · rw [kerase_cons_ne (by exact hown), dlookup_cons_ne _ _ (by exact hown)]
        simp only [map_cons, sum_cons]
        omega
  exact hlist entries.entries

theorem bucketCapacity_insert (entries : Buckets) (hash : BitVec 64) (bucket : TokenBucket) :
    bucketCapacity (entries.insert hash bucket) + ((entries.lookup hash).map (·.capacity)).getD 0 =
      bucketCapacity entries + bucket.capacity := by
  have herase := bucketCapacity_erase entries hash
  have hins : bucketCapacity (entries.insert hash bucket) =
      bucket.capacity + bucketCapacity (entries.erase hash) := by
    unfold bucketCapacity
    rw [AList.entries_insert]
    rfl
  omega

theorem tokens_insert (entries : Buckets) (own : BitVec 64) (bucket : TokenBucket) (bytes : Nat) (hash : BitVec 64) :
    CustomBuckets.tokens ⟨entries.insert own bucket, bytes⟩ hash =
      if hash = own then bucket.tokens else ((entries.lookup hash).map (·.tokens)).getD [] := by
  unfold CustomBuckets.tokens
  by_cases hown : hash = own
  · subst hown
    simp [AList.lookup_insert]
  · simp [hown, AList.lookup_insert_ne hown]

theorem tokens_erase (entries : Buckets) (own : BitVec 64) (bytes : Nat) (hash : BitVec 64) :
    CustomBuckets.tokens ⟨entries.erase own, bytes⟩ hash =
      if hash = own then [] else ((entries.lookup hash).map (·.tokens)).getD [] := by
  unfold CustomBuckets.tokens
  by_cases hown : hash = own
  · subst hown
    simp [AList.lookup_erase]
  · simp [hown, AList.lookup_erase_ne hown]

theorem tryReserve_spec (bucket : TokenBucket) (grow : Option Nat) :
    (bucket.tryReserve grow).2.tokens = bucket.tokens ∧
    bucket.capacity ≤ (bucket.tryReserve grow).2.capacity ∧
    ((bucket.tryReserve grow).1 = .ok () → bucket.tokens.length + 1 ≤ (bucket.tryReserve grow).2.capacity) := by
  unfold TokenBucket.tryReserve
  split
  · exact ⟨rfl, Nat.le_refl _, fun _ => ‹_›⟩
  · cases grow with
    | none => exact ⟨rfl, Nat.le_refl _, nofun⟩
    | some extra => exact ⟨rfl, by dsimp only; omega, fun _ => Nat.le_add_right _ _⟩

/-- Preparing changes no token; what is prepared has room for one more. -/
theorem Mirrors.prepare (h : Mirrors keys b) (key : BuiltKey H) (room : Bool) (grow : Option Nat) :
    Mirrors keys (b.prepare key.key room grow).2 ∧ ((b.prepare key.key room grow).1 = .ok () →
      ∀ hash token, key.key.custom = some (hash, token) → ∃ bucket,
        (b.prepare key.key room grow).2.entries.lookup hash = some bucket ∧
        bucket.tokens.length + 1 ≤ bucket.capacity) := by
  unfold CustomBuckets.prepare
  cases hcust : key.key.custom with
  | none => exact ⟨h, nofun⟩
  | some parts =>
    obtain ⟨own, token⟩ := parts
    dsimp only
    cases room with
    | false => exact ⟨h, nofun⟩
    | true =>
      obtain ⟨htoks, hcap, hroom⟩ := tryReserve_spec ((b.entries.lookup own).getD ⟨[], 0⟩) grow
      simp only [Bool.not_true, Bool.false_eq_true, if_false]
      refine ⟨⟨fun hash => ?_, ?_⟩, fun hok hash token hpts => ?_⟩
      · rw [tokens_insert, ← h.tokens, htoks]
        split
        · subst hash
          unfold CustomBuckets.tokens
          cases b.entries.lookup own <;> rfl
        · rfl
      · dsimp only
        have hrsvd := bucketCapacity_insert b.entries own
          (((b.entries.lookup own).getD ⟨[], 0⟩).tryReserve grow).2
        have hbef : ((b.entries.lookup own).map (·.capacity)).getD 0 =
            ((b.entries.lookup own).getD ⟨[], 0⟩).capacity := by
          cases b.entries.lookup own <;> rfl
        have hbyt := h.bytes
        omega
      · cases hpts
        refine ⟨_, AList.lookup_insert _, ?_⟩
        rw [htoks]
        exact hroom hok

theorem Mirrors.insert (h : Mirrors keys b) (hroom : ∀ hash token, key.key.custom = some (hash, token) → ∃ bucket,
      b.entries.lookup hash = some bucket ∧ bucket.tokens.length + 1 ≤ bucket.capacity) :
    ∃ b', b.insert key.key = some b' ∧ Mirrors (keys ++ [key]) b' := by
  unfold CustomBuckets.insert
  cases hcust : key.key.custom with
  | none =>
    refine ⟨b, rfl, fun hash => ?_, h.bytes⟩
    simp [h.tokens, BuiltKey.tokenIn, hcust]
  | some parts =>
    obtain ⟨own, token⟩ := parts
    obtain ⟨bucket, hlook, hcap⟩ := hroom own token hcust
    dsimp only
    rw [hlook]
    refine ⟨_, rfl, fun hash => ?_, ?_⟩
    · have htoks := h.tokens hash
      rw [tokens_insert, filterMap_append, ← htoks]
      unfold CustomBuckets.tokens
      by_cases hown : hash = own
      · subst hown
        simp [hlook, BuiltKey.tokenIn, hcust, TokenBucket.push]
      · simp [hown, BuiltKey.tokenIn, hcust, Ne.symm hown]
    · have hrsvd := bucketCapacity_insert b.entries own (bucket.push token)
      have hbyt := h.bytes
      rw [hlook] at hrsvd
      simp only [TokenBucket.push, Nat.max_eq_left hcap, Option.map_some, Option.getD_some] at hrsvd ⊢
      omega

theorem eq_iff : key.key.eq other.key = true ↔ key.identity = other.identity := by
  simp [MapKey.eq, BuiltKey.identity]

/-- A custom key is equal to the keys with its hash and token. -/
theorem eq_custom_iff (hcust : other.key.custom = some (hash, token)) :
    key.key.eq other.key = true ↔ key.tokenIn hash = some token := by
  have hother := other.plain (by rw [hcust]; rfl)
  simp only [MapKey.eq, Bool.and_eq_true, beq_iff_eq, hcust, hother, BuiltKey.tokenIn]
  cases hkey : key.key.custom with
  | none => simp
  | some parts =>
    have hplain := key.plain (by rw [hkey]; rfl)
    obtain ⟨own, token'⟩ := parts
    by_cases hown : own = hash <;> simp [hplain, hown]

/-- Keys of a table: no two are equal. -/
def Distinct (keys : List (BuiltKey H)) : Prop := (keys.map (·.identity)).Nodup

/-- The tokens of a hash, once the keys that are equal to a key are dropped. -/
theorem tokens_filter (keys : List (BuiltKey H)) (key : BuiltKey H) (hash : BitVec 64) :
    (keys.filter fun own => !own.key.eq key.key).filterMap (·.tokenIn hash) =
      (keys.filterMap (·.tokenIn hash)).filter fun token => key.tokenIn hash ≠ some token := by
  induction keys with
  | nil => rfl
  | cons own keys ih =>
    cases hcust : own.tokenIn hash with
    | none => by_cases heq : own.key.eq key.key <;> simp [heq, hcust, ih]
    | some token =>
      have heq : own.key.eq key.key = true ↔ key.tokenIn hash = some token := by
        have hown : own.key.custom = some (hash, token) := by
          unfold BuiltKey.tokenIn at hcust
          grind
        rw [eq_iff, eq_comm, ← eq_iff]
        exact eq_custom_iff hown
      by_cases hkey : key.tokenIn hash = some token
      · simp [heq.2 hkey, hcust, ih, hkey]
      · have hne : own.key.eq key.key = false := by
          rw [← Bool.not_eq_true, heq]
          exact hkey
        simp [hne, hcust, ih, hkey]

/-- A stored key is taken out of its bucket. -/
theorem Mirrors.remove (h : Mirrors keys b) (hstor : ∃ own ∈ keys, own.key.eq key.key = true) :
    ∃ b', b.remove key.key = some b' ∧ Mirrors (keys.filter fun own => !own.key.eq key.key) b' := by
  unfold CustomBuckets.remove
  cases hcust : key.key.custom with
  | none =>
    refine ⟨b, rfl, fun hash => ?_, h.bytes⟩
    rw [h.tokens, tokens_filter]
    symm
    apply filter_eq_self.2
    simp [BuiltKey.tokenIn, hcust]
  | some parts =>
    obtain ⟨own, token⟩ := parts
    obtain ⟨stored, hmem, heq⟩ := hstor
    have hlisted : token ∈ b.tokens own := by
      rw [h.tokens]
      exact mem_filterMap.2 ⟨stored, hmem, (eq_custom_iff hcust).1 heq⟩
    -- the token of a stored key is in a bucket
    cases hlook : b.entries.lookup own with
    | none => simp [CustomBuckets.tokens, hlook] at hlisted
    | some bucket =>
      have htoks : b.tokens own = bucket.tokens := by simp [CustomBuckets.tokens, hlook]
      have hfilt : ∀ hash, (keys.filter fun own => !own.key.eq key.key).filterMap (·.tokenIn hash) =
          if hash = own then bucket.tokens.filter (· ≠ token) else b.tokens hash := by
        intro hash
        rw [tokens_filter, ← h.tokens]
        split
        · subst hash
          rw [htoks]
          apply filter_congr
          simp [BuiltKey.tokenIn, hcust, eq_comm]
        · apply filter_eq_self.2
          simp [BuiltKey.tokenIn, hcust, Ne.symm ‹_›]
      have hrsvd := h.bytes
      dsimp only
      rw [hlook, Option.map_some]
      split
      next hemp =>
        refine ⟨_, rfl, fun hash => ?_, ?_⟩
        · rw [hfilt, tokens_erase, hemp]
          rfl
        · have herase := bucketCapacity_erase b.entries own
          simp only [hlook, Option.map_some, Option.getD_some] at herase ⊢
          omega
      next =>
        refine ⟨_, rfl, fun hash => ?_, ?_⟩
        · rw [hfilt, tokens_insert]
          rfl
        · have hins := bucketCapacity_insert b.entries own
            { bucket with tokens := bucket.tokens.filter (· ≠ token) }
          simp only [hlook, Option.map_some, Option.getD_some] at hins ⊢
          omega

end Index

/-! ## Tables -/

namespace HashStorage

variable {s : HashStorage H V} {key : BuiltKey H} {value : V}

def keys (s : HashStorage H V) : List (BuiltKey H) := s.entries.map (·.1)

/-- No two stored keys are equal, and the index lists the tokens of the stored keys. -/
structure Consistent (s : HashStorage H V) : Prop where
  distinct : Distinct s.keys
  mirrors : Mirrors s.keys s.buckets

theorem consistent_new : (new : HashStorage H V).Consistent := ⟨nodup_nil, fun _ => rfl, rfl⟩

theorem find_none (h : s.get key = none) : ∀ own ∈ s.keys, own.key.eq key.key = false := by
  intro own hown
  obtain ⟨e, hmem, rfl⟩ := mem_map.1 hown
  have hfind := find?_eq_none.1 (Option.map_eq_none_iff.1 h) e hmem
  simpa using hfind

theorem find_some (h : s.get key = some value) : ∃ own ∈ s.keys, own.key.eq key.key = true := by
  obtain ⟨e, hfind, -⟩ := Option.map_eq_some_iff.1 h
  have heq := find?_some (p := fun e : BuiltKey H × V => e.1.key.eq key.key) hfind
  exact ⟨e.1, mem_map_of_mem (mem_of_find?_eq_some hfind), heq⟩

@[simp] theorem keys_replace : (s.replace key value).keys = s.keys := by
  unfold replace keys
  rw [map_map]
  apply map_congr_left
  intro e _
  dsimp only [Function.comp]
  split <;> rfl

theorem Consistent.replace (h : s.Consistent) : (s.replace key value).Consistent :=
  ⟨by rw [keys_replace]; exact h.distinct, by rw [keys_replace]; exact h.mirrors⟩

theorem Consistent.clear (s : HashStorage H V) : s.clear.Consistent := ⟨nodup_nil, fun _ => rfl, rfl⟩

/-- An insertion that fails may leave an empty bucket behind; the tokens are the same. -/
theorem Consistent.insert (h : s.Consistent) (key : BuiltKey H) (value : V) (rooms : Rooms) :
    ∃ result s', s.insert key value rooms = some (result, s') ∧ s'.Consistent := by
  unfold HashStorage.insert
  cases hget : s.get key with
  | some old => exact ⟨_, _, rfl, h.replace⟩
  | none =>
    dsimp only
    split
    · exact ⟨_, _, rfl, h⟩
    · obtain ⟨hmirrors, hroom⟩ := h.mirrors.prepare key rooms.buckets rooms.grow
      generalize s.buckets.prepare key.key rooms.buckets rooms.grow = prepared at hmirrors hroom
      obtain ⟨result, buckets⟩ := prepared
      cases result with
      | error e => exact ⟨_, _, rfl, h.distinct, hmirrors⟩
      | ok _ =>
        obtain ⟨b', hins, hnext⟩ := hmirrors.insert (hroom rfl)
        dsimp only at hins ⊢
        rw [hins]
        refine ⟨_, _, rfl, ?_, ?_⟩
        · unfold Distinct keys
          simp only [map_append, map_cons, map_nil]
          refine List.Nodup.append h.distinct (nodup_singleton _) ?_
          intro identity hown hnew
          obtain ⟨own, hmem, hsame⟩ := mem_map.1 hown
          have hfr := find_none hget own hmem
          rw [eq_iff.2 (hsame.trans (mem_singleton.1 hnew))] at hfr
          cases hfr
        · have hkeys : keys ⟨s.entries ++ [(key, value)], b'⟩ = s.keys ++ [key] := map_append
          rw [hkeys]
          exact hnext

theorem Consistent.remove (h : s.Consistent) (key : BuiltKey H) :
    ∃ result s', s.remove key = some (result, s') ∧ s'.Consistent := by
  unfold HashStorage.remove
  cases hget : s.get key with
  | none => exact ⟨_, _, rfl, h⟩
  | some value =>
    obtain ⟨b', hrem, hmirrors⟩ := h.mirrors.remove (find_some hget)
    dsimp only
    rw [hrem]
    have hkeys : keys ⟨s.entries.filter fun e => !e.1.key.eq key.key, b'⟩ =
        s.keys.filter fun own => !own.key.eq key.key := by
      unfold keys
      rw [filter_map]
      rfl
    refine ⟨_, _, rfl, ?_, ?_⟩
    · rw [hkeys]
      exact h.distinct.sublist (filter_sublist.map _)
    · rw [hkeys]
      exact hmirrors

/-- Every token of the index leads to a stored key. -/
theorem Consistent.candidate (h : s.Consistent) (hash : BitVec 64) (index : Nat) :
    (s.candidate hash index).isSome := by
  unfold HashStorage.candidate
  cases htok : (s.buckets.tokens hash)[index]? with
  | none => rfl
  | some token =>
    have hlisted := mem_of_getElem? htok
    rw [h.mirrors.tokens] at hlisted
    obtain ⟨own, hmem, hown⟩ := mem_filterMap.1 hlisted
    obtain ⟨e, hent, rfl⟩ := mem_map.1 hmem
    have heq : e.1.key.eq (.custom hash token .unit : BuiltKey H).key = true := (eq_custom_iff rfl).2 hown
    dsimp only
    rw [Option.isSome_map]
    unfold find
    exact find?_isSome.2 ⟨e, hent, heq⟩

/-- A custom key is stored once. -/
theorem Consistent.custom (h : s.Consistent) :
    s.keys.Pairwise fun own other => own.key.custom.isSome → own.key.custom ≠ other.key.custom := by
  refine (pairwise_map.1 h.distinct).imp ?_
  intro own other hne hcust hsame
  apply hne
  unfold BuiltKey.identity
  rw [own.plain hcust, other.plain (by rwa [← hsame]), hsame]

/-- A bucket lists a token once. -/
theorem Consistent.nodup (h : s.Consistent) (hash : BitVec 64) : (s.buckets.tokens hash).Nodup := by
  rw [h.mirrors.tokens]
  refine List.Pairwise.filterMap (·.tokenIn hash) ?_ h.custom
  intro own other hne token hown token' hother hsame
  subst hsame
  have hcust : ∀ k : BuiltKey H, k.tokenIn hash = some token → k.key.custom = some (hash, token) := by
    intro k hk
    unfold BuiltKey.tokenIn at hk
    grind
  exact hne (by rw [hcust own hown]; rfl) ((hcust own hown).trans (hcust other hother).symm)

end HashStorage

namespace KeyTable

variable {t : KeyTable H V}

theorem consistent_insertNew (h : t.storage.Consistent) (checks : KeyChecks) (key : BuiltKey H) (value : V)
    (rooms : Rooms) :
    ∃ result t', t.insertNew checks key value rooms = some (result, t') ∧ t'.storage.Consistent := by
  unfold insertNew
  cases checks.opened with
  | error e => exact ⟨_, _, rfl, h⟩
  | ok _ =>
    dsimp only
    split
    · exact ⟨_, _, rfl, h⟩
    · obtain ⟨result, s', hins, hnext⟩ := h.insert key value rooms
      rw [hins]
      cases result <;> exact ⟨_, _, rfl, hnext⟩

theorem consistent_customInsert (h : t.storage.Consistent) (checks : KeyChecks) (hash token : BitVec 64)
    (key : Value H) (value : V) (rooms : Rooms) :
    ∃ result t', t.customInsert checks hash token key value rooms = some (result, t') ∧ t'.storage.Consistent := by
  unfold customInsert
  cases checks.admitted with
  | error e => exact ⟨_, _, rfl, h⟩
  | ok _ =>
    dsimp only
    split
    next =>
      cases checks.structural with
      | error e => exact ⟨_, _, rfl, h⟩
      | ok _ =>
        dsimp only
        split
        · exact ⟨_, _, rfl, h⟩
        · apply consistent_insertNew
          exact h
    next =>
      cases checks.opened with
      | error e => exact ⟨_, _, rfl, h⟩
      | ok _ =>
        dsimp only
        split
        · exact ⟨_, _, rfl, h⟩
        · exact ⟨_, _, rfl, h.replace⟩

theorem consistent_customRemove (h : t.storage.Consistent) (checks : KeyChecks) (hash token : BitVec 64) :
    ∃ result t', t.customRemove checks hash token = some (result, t') ∧ t'.storage.Consistent := by
  unfold customRemove
  split
  · exact ⟨_, _, rfl, h⟩
  · exact ⟨_, _, rfl, h⟩
  · obtain ⟨result, s', hrem, hnext⟩ := h.remove (.custom hash token .unit)
    rw [hrem]
    exact ⟨_, _, rfl, hnext⟩

/-- An operation meets no `expect`, whatever its outcome, and leaves a consistent table. -/
theorem consistent_step (h : t.storage.Consistent) (op : KeyOp H V) :
    ∃ t', t.step op = some t' ∧ t'.storage.Consistent := by
  cases op with
  | insert key value rooms =>
    obtain ⟨result, s', hins, hnext⟩ := h.insert key value rooms
    exact ⟨{ t with storage := s' }, by simp [step, hins], hnext⟩
  | remove key =>
    obtain ⟨result, s', hrem, hnext⟩ := h.remove key
    exact ⟨{ t with storage := s' }, by simp [step, hrem], hnext⟩
  | clear => exact ⟨_, rfl, .clear _⟩
  | customInsert checks hash token key value rooms =>
    obtain ⟨result, t', hins, hnext⟩ := consistent_customInsert h checks hash token key value rooms
    exact ⟨t', by simp [step, hins], hnext⟩
  | customRemove checks hash token =>
    obtain ⟨result, t', hrem, hnext⟩ := consistent_customRemove h checks hash token
    exact ⟨t', by simp [step, hrem], hnext⟩
  | elsewhere => exact ⟨_, rfl, h⟩

theorem consistent_run (ops : List (KeyOp H V)) : ∃ t, run ops = some t ∧ t.storage.Consistent := by
  have hsteps : ∀ t : KeyTable H V, t.storage.Consistent →
      ∃ t', ops.foldlM step t = some t' ∧ t'.storage.Consistent := by
    induction ops with
    | nil => exact fun t h => ⟨t, rfl, h⟩
    | cons op ops ih =>
      intro t h
      obtain ⟨t', hstep, hnext⟩ := consistent_step h op
      obtain ⟨final, hrun, hfin⟩ := ih t' hnext
      refine ⟨final, ?_, hfin⟩
      rw [foldlM_cons, hstep]
      exact hrun
  exact hsteps _ HashStorage.consistent_new

/-- The index of the tokens is that of the stored keys, through any run. -/
theorem custom_buckets (ops : List (KeyOp H V)) : ∃ t, run ops = some t ∧
    (∀ hash, t.storage.buckets.tokens hash = t.storage.keys.filterMap (·.tokenIn hash) ∧
      (t.storage.buckets.tokens hash).Nodup) ∧
    t.storage.keys.Pairwise (fun own other => own.key.custom.isSome → own.key.custom ≠ other.key.custom) ∧
    (∀ hash index, (t.storage.candidate hash index).isSome) ∧
    t.storage.buckets.tokenBytes = 8 * bucketCapacity t.storage.buckets.entries := by
  obtain ⟨t, hrun, h⟩ := consistent_run ops
  exact ⟨t, hrun, fun hash => ⟨h.mirrors.tokens hash, h.nodup hash⟩, h.custom, h.candidate, h.mirrors.bytes⟩

end KeyTable

end Kagari.Runtime
