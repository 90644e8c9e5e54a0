import Kagari.Stdlib.ListAlgorithmsSound

/-!
# What the list algorithms leave

The edits of a buffer, seen as edits of its values; then the paths of `run`: the list of a `Vec` and a custom list,
the copying forms, `distinct`, the fast path for scalars, and what a failure leaves (`list_paths_agree`).
-/

namespace Kagari.Stdlib

open Lib List
open Kagari.Runtime
open Hir (carrier)

variable {S H α β : Type}

/-! ## Storage -/

theorem ScalarKind.encode_injective (kind : ScalarKind) : Function.Injective (kind.encode : _ → Value H) := by
  intro a b h
  cases kind with
  | unit => rfl
  | bool => exact Value.bool.inj h
  | char => exact Value.char.inj h
  | f32 => exact Value.f32.inj h
  | f64 => exact Value.f64.inj h
  | integer ty =>
    obtain ⟨v, hv⟩ := a
    obtain ⟨w, hw⟩ := b
    have h : (carrier ty v : Value H) = carrier ty w := h
    have hread := (Hir.readInteger_carrier (H := H) hv).symm.trans
      ((congrArg _ h).trans (Hir.readInteger_carrier hw))
    cases hread
    rfl

variable {kind : ScalarKind}

namespace SequenceStorage

variable {R : Type}

/-- The values determine a storage of a kind. -/
theorem eq_of_values {a b : SequenceStorage H} (hkind : a.kind = b.kind) (hvals : a.values = b.values) : a = b := by
  cases a with
  | traced items =>
    cases b with
    | traced items' => exact congrArg traced hvals
    | scalar kind items' => cases hkind
  | scalar kind items =>
    cases b with
    | traced items' => cases hkind
    | scalar kind' items' =>
      obtain rfl : kind = kind' := Option.some.inj hkind
      exact congrArg (scalar kind) (map_injective_iff.2 kind.encode_injective hvals)

theorem reverse_values (storage : SequenceStorage H) : storage.reverse.values = storage.values.reverse := by
  cases storage with
  | scalar kind items => exact map_reverse
  | traced items => rfl

theorem slice_eq {storage : SequenceStorage H} {items : List kind.Carrier}
    (h : storage.slice kind = some items) : storage = .scalar kind items := by
  cases storage with
  | traced items => cases h
  | scalar own items' =>
    replace h : (if h : own = kind then some (h ▸ items') else none) = some items := h
    split at h
    next hown =>
      obtain rfl := hown
      cases h
      rfl
    · cases h

variable {f : ∀ α : Type, (α → Value H) → List α → R × List α}

/-- An edit that maps along its view of the elements is an edit of the values. -/
theorem edit_values {g : List (Value H) → R × List (Value H)}
    (h : ∀ α encode items, ((f α encode items).1, (f α encode items).2.map encode) = g (items.map encode))
    (storage : SequenceStorage H) : ((storage.edit f).1, (storage.edit f).2.values) = g storage.values := by
  cases storage with
  | scalar kind items => exact h kind.Carrier kind.encode items
  | traced items =>
    have hvals := h (Value H) id items
    rw [map_id, map_id] at hvals
    exact hvals

theorem edit_perm
    (h : ∀ α encode items, (f α encode items).2.Perm items) (storage : SequenceStorage H) :
    (storage.edit f).2.values.Perm storage.values := by
  cases storage with
  | scalar kind items => exact (h kind.Carrier kind.encode items).map _
  | traced items => exact h (Value H) id items

end SequenceStorage

theorem retainItems_values (keep : Value H → Call S Bool) (encode : α → Value H) (items : List α) (s : S) :
    ((retainItems keep encode items s).1, (retainItems keep encode items s).2.map encode) =
      retainItems keep id (items.map encode) s := by
  unfold retainItems
  simp only [id]
  rw [retain_map encode (fun value => guarded true (keep value))]

theorem dedupItems_values (equal : Value H → Value H → Call S Bool) (encode : α → Value H) (items : List α) (s : S) :
    ((dedupItems equal encode items s).1, (dedupItems equal encode items s).2.map encode) =
      dedupItems equal id (items.map encode) s := by
  unfold dedupItems
  simp only [id]
  rw [dedupBy_map encode (fun next previous => guarded false (equal previous next))]

theorem sortItems_perm (sorter : SortBy) (compare : Value H → Value H → Call S Ordering) (encode : α → Value H)
    (items : List α) (s : S) : (sortItems sorter compare encode items s).2.Perm items :=
  (sorter.permutes items).run none s

/-- The algorithms that compare elements to order them. -/
def Algorithm.sorts : Algorithm → Bool
  | sort | sortBy | sortByKey => true
  | reverse | retain | dedup | distinct => false

section Edits

variable {cx : CallContext S H} {c : Comparison S H}

section Values

variable (sorter : SortBy) (cx) (storage : SequenceStorage H)

theorem edit_retain (halg : c.algorithm = .retain) (s : S) :
    ((c.edit sorter cx storage s).1, (c.edit sorter cx storage s).2.values) =
      retainItems c.keep id storage.values s := by
  unfold Comparison.edit
  rw [halg]
  exact SequenceStorage.edit_values (g := fun values => retainItems c.keep id values s)
    (fun α encode items => retainItems_values c.keep encode items s) storage

theorem edit_dedup (halg : c.algorithm = .dedup) (s : S) :
    ((c.edit sorter cx storage s).1, (c.edit sorter cx storage s).2.values) =
      dedupItems (c.equal cx) id storage.values s := by
  unfold Comparison.edit
  rw [halg]
  exact SequenceStorage.edit_values (g := fun values => dedupItems (c.equal cx) id values s)
    (fun α encode items => dedupItems_values (c.equal cx) encode items s) storage

theorem edit_distinct (halg : c.algorithm = .distinct) (s : S) :
    ((c.edit sorter cx storage s).1, (c.edit sorter cx storage s).2.values) =
      c.distinctItems cx id storage.values s := by
  unfold Comparison.edit
  rw [halg]
  refine SequenceStorage.edit_values (g := fun values => c.distinctItems cx id values s) (fun α encode items => ?_)
    storage
  unfold Comparison.distinctItems
  rw [← retainItems_values (c.fresh cx) encode items (s, [])]

end Values

variable {sorter : SortBy} {storage : SequenceStorage H}

/-- What the fast path sorts. -/
theorem sortScalars_some {sorted : SequenceStorage H} (h : c.sortScalars storage = .ok (some sorted)) :
    ∃ operation kind cmp items, c.operation = some operation ∧ operation.primitive = some .valueCmp ∧
      kind.order = some cmp ∧ storage = .scalar kind items ∧
      sorted = .scalar kind (items.mergeSort fun a b => (cmp a b).isLE) := by
  unfold Comparison.sortScalars at h
  split at h
  · cases h
  next operation hoper =>
  split at h
  · cases h
  next hprim =>
  split at h
  · cases h
  next kind _ =>
  split at h
  · cases h
  next cmp hcmp =>
  split at h
  · cases h
  next items hslc =>
    exact ⟨operation, kind, cmp, items, hoper, Decidable.not_not.1 hprim, hcmp,
      SequenceStorage.slice_eq hslc, (Option.some.inj (Except.ok.inj h)).symm⟩

/-- A sort loses no element, however it ends. -/
theorem edit_sorts (hsorts : c.algorithm.sorts = true) (s : S) :
    (c.edit sorter cx storage s).2.values.Perm storage.values := by
  have hsort := SequenceStorage.edit_perm
    (fun α encode items => sortItems_perm sorter (c.order cx) encode items s) storage
  unfold Comparison.edit
  cases halg : c.algorithm with
  | sortBy => exact hsort
  | sortByKey => exact hsort
  | sort =>
    dsimp only
    cases hscals : c.sortScalars storage with
    | error e => exact .refl _
    | ok sorted =>
      cases sorted with
      | none => exact hsort
      | some sorted =>
        obtain ⟨_, kind, cmp, items, -, -, -, rfl, rfl⟩ := sortScalars_some hscals
        exact (mergeSort_perm items _).map kind.encode
  | reverse | retain | dedup | distinct =>
    rw [halg] at hsorts
    cases hsorts

end Edits

/-! ## The fast path -/

section Scalars

/-- The orders of the scalars are total, and distinguish their elements. -/
theorem ScalarKind.order_total {cmp : kind.Carrier → kind.Carrier → Ordering}
    (h : kind.order = some cmp) : Std.TransCmp cmp ∧ ∀ a b, cmp a b = .eq → a = b := by
  cases kind with
  | unit =>
    cases h
    exact ⟨{ eq_swap := rfl, isLE_trans := fun _ _ => rfl }, fun _ _ _ => rfl⟩
  | bool =>
    cases h
    exact ⟨inferInstanceAs (Std.TransOrd Bool), fun a b hab => Std.LawfulEqOrd.eq_of_compare (α := Bool) hab⟩
  | integer ty =>
    cases h
    refine ⟨inferInstanceAs (Std.TransCmp (compareOn Subtype.val)), fun a b hab => Subtype.ext ?_⟩
    exact Std.LawfulEqOrd.eq_of_compare hab
  | char => cases h
  | f32 => cases h
  | f64 => cases h

variable {sorter : SortBy} {cx : CallContext S H} {c : Comparison S H}

theorem compare_natCast (a b : Nat) : compare (a : Int) (b : Int) = compare a b := by
  simp only [compare, compareOfLessAndEq]
  grind

/-- `builtin_order` of encoded scalars is the order of the scalars. -/
theorem builtinOrder_encode {cmp : kind.Carrier → kind.Carrier → Ordering}
    (h : kind.order = some cmp) (a b : kind.Carrier) (s : S) :
    cx.builtinOrder (kind.encode a) (kind.encode b) s = .ok (some (cmp a b)) := by
  cases kind with
  | unit =>
    cases h
    rfl
  | bool =>
    cases h
    rfl
  | integer ty =>
    cases h
    obtain ⟨v, hv⟩ := a
    obtain ⟨w, hw⟩ := b
    have h32 : Mir.builtinRepresentation ty.builtinType = .i32 →
        compare (BitVec.ofInt 32 v).toInt (BitVec.ofInt 32 w).toInt = compare v w := by
      intro hrep
      rw [Hir.toInt_ofInt_32 (Hir.inBounds_i32 hrep hv), Hir.toInt_ofInt_32 (Hir.inBounds_i32 hrep hw)]
    have h64 : Mir.builtinRepresentation ty.builtinType = .i64 →
        compare (BitVec.ofInt 64 v).toInt (BitVec.ofInt 64 w).toInt = compare v w := by
      intro hrep
      rw [Hir.toInt_ofInt_64 (Hir.inBounds_i64 hrep hv), Hir.toInt_ofInt_64 (Hir.inBounds_i64 hrep hw)]
    cases ty with
    | i8 | i16 | i32 => exact congrArg (fun order => Except.ok (some order)) (h32 rfl)
    | i64 | u8 | u16 | u32 => exact congrArg (fun order => Except.ok (some order)) (h64 rfl)
    | u64 =>
      have hv' := Hir.toNat_ofInt_64 ((IntegerType.bounds_le .u64 hv).2 rfl)
      have hw' := Hir.toNat_ofInt_64 ((IntegerType.bounds_le .u64 hw).2 rfl)
      refine congrArg (fun order => Except.ok (some order)) ?_
      show compare (BitVec.ofInt 64 v).toNat (BitVec.ofInt 64 w).toNat = compare v w
      rw [← compare_natCast, hv', hw']
  | char => cases h
  | f32 => cases h
  | f64 => cases h

/-- The fast path leaves what the comparisons leave. -/
theorem sortScalars_eq (hpoll : ∀ s, (cx.poll s).1 = .ok ()) (halg : c.algorithm = .sort)
    {storage sorted : SequenceStorage H} (h : c.sortScalars storage = .ok (some sorted)) (s : S) : ∃ t,
      storage.edit (fun _ encode items => sortItems sorter (c.order cx) encode items s) = ((.ok (), t), sorted) := by
  obtain ⟨operation, kind, cmp, items, hoper, hprim, hcmp, rfl, rfl⟩ := sortScalars_some h
  obtain ⟨htr, heq⟩ := ScalarKind.order_total hcmp
  have hord : ∀ a b s, (c.order cx (kind.encode a) (kind.encode b) s).1 = .ok (cmp a b) := by
    intro a b s
    obtain ⟨t, ht⟩ := Call.exists_world (hpoll s)
    have hread : Call.read (cx.builtinOrder (kind.encode a) (kind.encode b)) t = (.ok (some (cmp a b)), t) :=
      Prod.ext (builtinOrder_encode hcmp a b t) rfl
    simp only [Comparison.order, Call.bind_ok ht, halg, Comparison.compareBy, hoper, hprim, if_true]
    rw [Call.bind_ok hread]
    rfl
  have hsrtd : (items.mergeSort fun a b => (cmp a b).isLE).Pairwise fun a b => cmp a b ≠ .gt := by
    refine (pairwise_mergeSort ?_ ?_ items).imp fun hle => Ordering.isLE_iff_ne_gt.1 hle
    · exact fun a b c hab hbc => Std.TransCmp.isLE_trans hab hbc
    · intro a b
      have hswap : cmp b a = (cmp a b).swap := Std.OrientedCmp.eq_swap
      rw [hswap]
      cases cmp a b <;> rfl
  obtain ⟨hrun, hfailure⟩ := Sorting.run_answered hord (sorter.sorting items) s
  rw [sorter.unique heq (mergeSort_perm items fun a b => (cmp a b).isLE) hsrtd] at hrun
  obtain ⟨hdone, hits⟩ := Prod.ext_iff.1 hrun
  dsimp only at hdone hits
  simp only [SequenceStorage.edit, sortItems, hdone, hits, hfailure, if_true]
  exact ⟨_, rfl⟩

end Scalars

/-! ## Failures -/

/-- The elements that are kept, where every one has an answer. -/
def keepAll (keep : α → Call S Bool) : List α → Call S (List α)
  | [] => .pure []
  | a :: rest => (keep a).bind fun kept => (keepAll keep rest).bind fun others =>
    .pure (if kept then a :: others else others)

/-- The element kept last, and those that are kept behind `previous`, where every one has an answer. -/
def distinguishAll (equal : α → α → Call S Bool) (previous : α) : List α → Call S (α × List α)
  | [] => .pure (previous, [])
  | a :: rest => (equal previous a).bind fun same =>
    if same then distinguishAll equal previous rest
    else (distinguishAll equal a rest).bind fun (last, others) => .pure (last, a :: others)

variable {e : RuntimeError}

/-- Where `retain` failed, the elements before were kept or not as they were answered, and all others stay. -/
theorem retain_failed {keep : α → Call S Bool} {t : S} {left : List α} (items : List α) : ∀ {s : S},
    retain (fun a => guarded true (keep a)) items (none, s) = (left, some e, t) →
      ∃ before a rest kept u, items = before ++ a :: rest ∧ keepAll keep before s = (.ok kept, u) ∧
        keep a u = (.error e, t) ∧ left = kept ++ a :: rest := by
  induction items generalizing left with
  | nil => exact fun h => by cases h
  | cons a rest ih =>
    intro s h
    obtain ⟨answer, u, hu⟩ : ∃ answer u, keep a s = (answer, u) := ⟨_, _, rfl⟩
    rw [retain] at h
    cases answer with
    | error e' =>
      rw [guarded_error hu] at h
      simp only [retain_guarded_failed] at h
      cases h
      exact ⟨[], a, rest, [], s, rfl, rfl, hu, rfl⟩
    | ok kept =>
      rw [guarded_ok hu] at h
      cases kept with
      | true =>
        obtain ⟨before, b, rest', others, w, rfl, hall, hfail, hleft⟩ := ih (Prod.ext rfl (Prod.ext_iff.1 h).2)
        refine ⟨a :: before, b, rest', a :: others, w, rfl, ?_, hfail, ?_⟩
        · rw [keepAll, Call.bind_ok hu, Call.bind_ok hall]
          rfl
        · rw [cons_append, ← hleft]
          exact (Prod.ext_iff.1 h).1.symm
      | false =>
        obtain ⟨before, b, rest', others, w, rfl, hall, hfail, hleft⟩ := ih h
        refine ⟨a :: before, b, rest', others, w, rfl, ?_, hfail, hleft⟩
        rw [keepAll, Call.bind_ok hu, Call.bind_ok hall]
        rfl

theorem dedupFrom_failed {equal : α → α → Call S Bool} {t : S} (items : List α) :
    ∀ {previous : α} {left : List α} {s : S},
    dedupFrom (fun next previous => guarded false (equal previous next)) previous items (none, s) =
      (left, some e, t) → ∃ before a rest last kept u, items = before ++ a :: rest ∧
        distinguishAll equal previous before s = (.ok (last, kept), u) ∧ equal last a u = (.error e, t) ∧
        left = kept ++ a :: rest := by
  induction items with
  | nil => exact fun h => by cases h
  | cons a rest ih =>
    intro previous left s h
    obtain ⟨answer, u, hu⟩ : ∃ answer u, equal previous a s = (answer, u) := ⟨_, _, rfl⟩
    rw [dedupFrom] at h
    cases answer with
    | error e' =>
      rw [guarded_error hu] at h
      simp only [dedupFrom_guarded_failed] at h
      cases h
      exact ⟨[], a, rest, previous, [], s, rfl, rfl, hu, rfl⟩
    | ok same =>
      rw [guarded_ok hu] at h
      cases same with
      | false =>
        obtain ⟨before, b, rest', last, others, w, rfl, hall, hfail, hleft⟩ :=
          ih (Prod.ext rfl (Prod.ext_iff.1 h).2)
        refine ⟨a :: before, b, rest', last, a :: others, w, rfl, ?_, hfail, ?_⟩
        · rw [distinguishAll, Call.bind_ok hu, if_neg Bool.false_ne_true, Call.bind_ok hall]
          rfl
        · rw [cons_append, ← hleft]
          exact (Prod.ext_iff.1 h).1.symm
      | true =>
        obtain ⟨before, b, rest', last, others, w, rfl, hall, hfail, hleft⟩ := ih h
        refine ⟨a :: before, b, rest', last, others, w, rfl, ?_, hfail, hleft⟩
        rw [distinguishAll, Call.bind_ok hu]
        exact hall

theorem outcome_error {failure : Option RuntimeError} (h : outcome failure = .error e) :
    failure = some e := by
  cases failure with
  | none => cases h
  | some e' => exact congrArg some (Except.error.inj h)

variable {items : List (Value H)}

theorem retainItems_failed {keep : Value H → Call S Bool} {s : S}
    (h : (retainItems keep id items s).1.1 = .error e) : ∃ before a rest kept u,
      items = before ++ a :: rest ∧ keepAll keep before s = (.ok kept, u) ∧ (keep a u).1 = .error e ∧
      (retainItems keep id items s).2 = kept ++ a :: rest := by
  obtain ⟨before, a, rest, kept, u, hits, hall, hfail, hleft⟩ :=
    retain_failed items (Prod.ext rfl (Prod.ext (outcome_error h) rfl))
  exact ⟨before, a, rest, kept, u, hits, hall, congrArg Prod.fst hfail, hleft⟩

theorem dedupItems_failed {equal : Value H → Value H → Call S Bool} {s : S}
    (h : (dedupItems equal id items s).1.1 = .error e) : ∃ first before a rest last kept u,
      items = first :: (before ++ a :: rest) ∧ distinguishAll equal first before s = (.ok (last, kept), u) ∧
      (equal last a u).1 = .error e ∧ (dedupItems equal id items s).2 = first :: (kept ++ a :: rest) := by
  cases items with
  | nil => cases h
  | cons first items =>
    obtain ⟨before, a, rest, last, kept, u, hits, hall, hfail, hleft⟩ :=
      dedupFrom_failed items (Prod.ext rfl (Prod.ext (outcome_error h) rfl))
    exact ⟨first, before, a, rest, last, kept, u, congrArg (first :: ·) hits, hall, congrArg Prod.fst hfail,
      congrArg (first :: ·) hleft⟩

/-! ## First occurrences -/

/-- The elements that are not equal to one before them. -/
def firstOccurrences (same : α → α → Bool) (before : List α) : List α → List α
  | [] => []
  | a :: rest =>
    if before.any (same a) then firstOccurrences same (before ++ [a]) rest
    else a :: firstOccurrences same (before ++ [a]) rest

section Distinct

variable {cx : CallContext S H} {c : Comparison S H} {same : Value H → Value H → Bool}

theorem anySeen_any (h : ∀ a b s, (c.equal cx a b s).1 = .ok (same a b)) (value : Value H) (seen : List (Value H)) :
    ∀ s, (c.anySeen cx value seen s).1 = .ok (seen.any (same value)) := by
  induction seen with
  | nil => exact fun _ => rfl
  | cons previous seen ih =>
    intro s
    obtain ⟨t, ht⟩ := Call.exists_world (h value previous s)
    rw [Comparison.anySeen, Call.bind_ok ht, any_cons]
    cases same value previous with
    | true => rfl
    | false => exact ih t

/-- What was kept says of every value whether it is equal to one before. -/
theorem retain_fresh (h : ∀ a b s, (c.equal cx a b s).1 = .ok (same a b)) (hroom : ∀ n, cx.room n = true)
    (htr : ∀ a b c, same a b = true → same b c = true → same a c = true) (items : List (Value H)) :
    ∀ (before seen : List (Value H)) (s : S), (∀ value, seen.any (same value) = before.any (same value)) →
      ∃ st, retain (fun a => guarded true (c.fresh cx a)) items (none, s, seen) =
        (firstOccurrences same before items, none, st) := by
  induction items with
  | nil => exact fun _ _ _ _ => ⟨_, rfl⟩
  | cons a rest ih =>
    intro before seen s hseen
    obtain ⟨t, ht⟩ := Call.exists_world (anySeen_any h a seen s)
    rw [hseen a] at ht
    cases hany : before.any (same a) with
    | true =>
      rw [hany] at ht
      have hfr : c.fresh cx a (s, seen) = (.ok false, t, seen) := by simp only [Comparison.fresh, ht]
      rw [retain, guarded_ok hfr, firstOccurrences, if_pos hany]
      refine ih _ seen t fun value => ?_
      rw [hseen value, any_append, any_cons, any_nil, Bool.or_false]
      cases hsame : same value a with
      | false => exact (Bool.or_false _).symm
      | true =>
        obtain ⟨b, hb, hab⟩ := any_eq_true.1 hany
        rw [Bool.or_true]
        exact any_eq_true.2 ⟨b, hb, htr value a b hsame hab⟩
    | false =>
      rw [hany] at ht
      have hfr : c.fresh cx a (s, seen) = (.ok true, t, seen ++ [a]) := by
        simp only [Comparison.fresh, ht, hroom, if_true]
      obtain ⟨st, hst⟩ := ih (before ++ [a]) (seen ++ [a]) t fun value => by
        rw [any_append, any_append, hseen value]
      rw [retain, guarded_ok hfr, firstOccurrences, if_neg (by rw [hany]; exact Bool.false_ne_true)]
      dsimp only
      rw [hst]
      exact ⟨st, rfl⟩

theorem distinctItems_eq (h : ∀ a b s, (c.equal cx a b s).1 = .ok (same a b)) (hroom : ∀ n, cx.room n = true)
    (htr : ∀ a b c, same a b = true → same b c = true → same a c = true) (items : List (Value H)) (s : S) : ∃ t,
      c.distinctItems cx id items s = ((.ok (), t), firstOccurrences same [] items) := by
  obtain ⟨st, hst⟩ := retain_fresh h hroom htr items [] [] s fun _ => rfl
  simp only [Comparison.distinctItems, retainItems, id, hst]
  exact ⟨_, rfl⟩

end Distinct

/-! ## The paths -/

/-- The result of a copying form, from what an edit in place returns and leaves. -/
def copied : (Except RuntimeError (Option (SequenceStorage H)) × S) × SequenceStorage H →
    Except RuntimeError (Option (SequenceStorage H))
  | ((.ok _, _), list) => .ok (some list)
  | ((.error e, _), _) => .error e

section Paths

variable (sorter : SortBy) {cx : CallContext S H} {c : Comparison S H} {receiver : Receiver S H}
  {vec : SequenceStorage H}

/-- An edit in place, where nothing stops it before. -/
theorem runVec_eq (h : Steady cx c) (vec : SequenceStorage H) (s : S) : ∃ t, c.runVec sorter cx false vec s =
    (((c.edit sorter cx vec t).1.1.map fun _ => none, (c.edit sorter cx vec t).1.2), (c.edit sorter cx vec t).2) := by
  obtain ⟨t, ht⟩ := Call.exists_world (h.poll s)
  refine ⟨t, ?_⟩
  obtain ⟨⟨⟨result, u⟩, list⟩, hedit⟩ : ∃ edited, c.edit sorter cx vec t = edited := ⟨_, rfl⟩
  simp only [Comparison.runVec, ht, hedit]
  cases result <;> rfl

theorem runVec_copied (h : Steady cx c) (vec : SequenceStorage H) (s s' : S) :
    (c.runVec sorter cx true vec s').1.1 = copied (c.runVec sorter cx false vec s) ∧
      (c.runVec sorter cx true vec s').2 = vec := by
  obtain ⟨t, ht⟩ := runVec_eq sorter h vec s
  obtain ⟨t', ht'⟩ := Call.exists_world (h.poll s')
  obtain ⟨hres, hlist⟩ := h.edit sorter vec t t'
  rw [ht, hres, hlist]
  obtain ⟨⟨⟨result, u⟩, list⟩, hedit⟩ : ∃ edited, c.edit sorter cx vec t' = edited := ⟨_, rfl⟩
  simp only [Comparison.runVec, ht', hedit, h.room, Bool.not_true, Bool.false_eq_true, if_false, if_true]
  cases result <;> exact ⟨rfl, rfl⟩

/-- A custom list is copied first. -/
theorem runCustom_eq (h : Steady cx c) (hkind : receiver.element = vec.kind) (copy : Bool) (s : S) : ∃ t,
    c.runCustom sorter cx receiver copy (s, vec.values) = (if copy then fun (s, items) =>
        match c.edit sorter cx vec s with
        | ((.error e, s), _) => (.error e, s, items)
        | ((.ok (), s), target) => (.ok (some target), s, items)
      else (c.editCustom sorter cx receiver vec).bind fun _ => .pure none : Call (S × List (Value H)) _)
        (t, vec.values) := by
  obtain ⟨t, ht⟩ := Call.exists_world (h.poll s)
  obtain ⟨storage, t', hsnap, hown, hvals⟩ := receiver.snapshot_eq t vec.values
  obtain rfl : storage = vec := SequenceStorage.eq_of_values (hown.trans hkind) hvals
  refine ⟨t', ?_⟩
  rw [Comparison.runCustom, Call.bind_ok (Call.beside_eq ht _)]
  exact Call.bind_ok hsnap

theorem runCustom_copied (h : Steady cx c) (hkind : receiver.element = vec.kind) (s s' : S) :
    (c.runCustom sorter cx receiver true (s', vec.values)).1 = copied (c.runVec sorter cx false vec s) ∧
      (c.runCustom sorter cx receiver true (s', vec.values)).2.2 = vec.values := by
  obtain ⟨t, ht⟩ := runVec_eq sorter h vec s
  obtain ⟨t', ht'⟩ := runCustom_eq sorter h hkind true s'
  obtain ⟨hres, hlist⟩ := h.edit sorter vec t t'
  rw [ht', ht, hres, hlist]
  obtain ⟨⟨⟨result, u⟩, list⟩, hedit⟩ : ∃ edited, c.edit sorter cx vec t' = edited := ⟨_, rfl⟩
  simp only [hedit, if_true]
  cases result <;> exact ⟨rfl, rfl⟩

/-- The loop behind the first element, which is kept. -/
theorem editLoop_dedupBy (receiver : Receiver S H) (h : Steady cx c) (halg : c.algorithm = .dedup)
    (values : List (Value H)) (s t : S) :
    ∃ s', c.editLoop cx receiver none 0 values (s, values) =
      ((dedupItems (c.equal cx) id values t).1.1, s', (dedupItems (c.equal cx) id values t).2) := by
  cases values with
  | nil => exact ⟨s, rfl⟩
  | cons value rest =>
    have hkp : ∀ s, (c.keeps cx none value s).1 = .ok true := by
      intro s
      unfold Comparison.keeps
      rw [if_neg (by rw [halg]; decide)]
      rfl
    obtain ⟨u, hstep⟩ := editLoop_step receiver h.poll hkp [] rest s
    obtain ⟨s', hrest⟩ := editLoop_dedup receiver h halg rest value [value] u t
    exact ⟨s', hstep.trans hrest⟩

theorem edit_length (cx : CallContext S H) (vec : SequenceStorage H)
    (halg : c.algorithm = .reverse ∨ c.algorithm.sorts = true) (s : S) :
    (c.edit sorter cx vec s).2.values.length = vec.values.length := by
  rcases halg with hrevs | hsorts
  · unfold Comparison.edit
    rw [hrevs, SequenceStorage.reverse_values, length_reverse]
  · exact (edit_sorts hsorts s).length_eq

/-- A custom list holds what the `Vec` holds, unless a sort has failed: then it holds what it held. -/
theorem editCustom_eq (receiver : Receiver S H) (vec : SequenceStorage H) (h : Steady cx c)
    (halg : c.algorithm ≠ .distinct) (s t : S) : ∃ s',
    c.editCustom sorter cx receiver vec (s, vec.values) = ((c.edit sorter cx vec t).1.1, s',
      if c.algorithm.sorts = true ∧ (c.edit sorter cx vec t).1.1 ≠ .ok () then vec.values
      else (c.edit sorter cx vec t).2.values) := by
  have hcopy : c.algorithm = .reverse ∨ c.algorithm.sorts = true →
      ¬(c.algorithm = .retain ∨ c.algorithm = .dedup) → ∃ s',
      c.editCustom sorter cx receiver vec (s, vec.values) = ((c.edit sorter cx vec t).1.1, s',
        if (c.edit sorter cx vec t).1.1 ≠ .ok () then vec.values else (c.edit sorter cx vec t).2.values) := by
    intro hcopies hne
    obtain ⟨hres, hlist⟩ := h.edit sorter vec s t
    have hlen := edit_length sorter cx vec hcopies s
    rw [← hres, ← hlist]
    obtain ⟨⟨⟨result, u⟩, list⟩, hedit⟩ : ∃ edited, c.edit sorter cx vec s = edited := ⟨_, rfl⟩
    rw [hedit] at hlen
    unfold Comparison.editCustom
    rw [if_neg hne]
    simp only [hedit]
    cases result with
    | error e => exact ⟨u, by simp⟩
    | ok _ =>
      obtain ⟨s', hset⟩ := setLoop_eq receiver h.poll list.values vec.values.length 0 vec.values u rfl
        (by rw [Nat.zero_add]; exact hlen.symm)
      rw [range_eq_range']
      exact ⟨s', by simpa using hset⟩
  cases hcase : c.algorithm with
  | distinct => exact absurd hcase halg
  | reverse =>
    obtain ⟨s', hs'⟩ := hcopy (.inl hcase) (by rw [hcase]; decide)
    have hok : (c.edit sorter cx vec t).1.1 = .ok () := by
      unfold Comparison.edit
      rw [hcase]
    exact ⟨s', by rw [hs', hok]; simp [Algorithm.sorts]⟩
  | sort | sortBy | sortByKey =>
    obtain ⟨s', hs'⟩ := hcopy (.inr (by rw [hcase]; rfl)) (by rw [hcase]; decide)
    exact ⟨s', by rw [hs']; simp [Algorithm.sorts]⟩
  | retain =>
    obtain ⟨hres, hvals⟩ := Prod.ext_iff.1 (edit_retain cx sorter vec hcase t)
    obtain ⟨s', hs'⟩ := editLoop_retain receiver h hcase vec.values none [] s t
    dsimp only at hres hvals
    unfold Comparison.editCustom
    rw [if_pos (.inl hcase), hres, hvals]
    exact ⟨s', by simpa [Algorithm.sorts, retainItems] using hs'⟩
  | dedup =>
    obtain ⟨hres, hvals⟩ := Prod.ext_iff.1 (edit_dedup cx sorter vec hcase t)
    obtain ⟨s', hs'⟩ := editLoop_dedupBy receiver h hcase vec.values s t
    dsimp only at hres hvals
    unfold Comparison.editCustom
    rw [if_pos (.inr hcase), hres, hvals]
    exact ⟨s', by simpa [Algorithm.sorts] using hs'⟩

theorem runCustom_edited (h : Steady cx c) (halg : c.algorithm ≠ .distinct)
    (hkind : receiver.element = vec.kind) (s s' : S) :
    (c.runCustom sorter cx receiver false (s', vec.values)).1 = (c.runVec sorter cx false vec s).1.1 ∧
      ((c.algorithm.sorts = true → (c.runVec sorter cx false vec s).1.1 = .ok none) →
        (c.runCustom sorter cx receiver false (s', vec.values)).2.2 = (c.runVec sorter cx false vec s).2.values) ∧
      (c.algorithm.sorts = true → (c.runVec sorter cx false vec s).1.1 ≠ .ok none →
        (c.runCustom sorter cx receiver false (s', vec.values)).2.2 = vec.values) := by
  obtain ⟨t, ht⟩ := runVec_eq sorter h vec s
  obtain ⟨t', ht'⟩ := runCustom_eq sorter h hkind false s'
  obtain ⟨u, hu⟩ := editCustom_eq sorter receiver vec h halg t' t
  rw [ht', ht]
  cases hres : (c.edit sorter cx vec t).1.1 with
  | error e =>
    rw [hres] at hu
    simp only [Bool.false_eq_true, if_false, Call.bind_error hu]
    refine ⟨rfl, fun hsorts => if_neg fun h => ?_, fun hsorts _ => if_pos ⟨hsorts, nofun⟩⟩
    cases hsorts h.1
  | ok _ =>
    rw [hres] at hu
    simp only [Bool.false_eq_true, if_false, Call.bind_ok hu]
    exact ⟨rfl, fun _ => if_neg fun h => h.2 rfl, fun _ h => absurd rfl h⟩

end Paths

/-- The paths of the list algorithms agree, where callbacks answer the same for the same arguments: a custom list ends
as the `Vec` does, unless a sort fails, which leaves it as it was; and the copying forms return what the `Vec` would
hold. -/
theorem list_paths_agree (sorter : SortBy) (cx : CallContext S H) (c : Comparison S H) :
    (Steady cx c → ∀ (receiver : Receiver S H) (vec : SequenceStorage H), receiver.element = vec.kind → ∀ s s',
      (c.algorithm ≠ .distinct →
        (c.runCustom sorter cx receiver false (s', vec.values)).1 = (c.runVec sorter cx false vec s).1.1 ∧
        ((c.algorithm.sorts = true → (c.runVec sorter cx false vec s).1.1 = .ok none) →
          (c.runCustom sorter cx receiver false (s', vec.values)).2.2 = (c.runVec sorter cx false vec s).2.values) ∧
        (c.algorithm.sorts = true → (c.runVec sorter cx false vec s).1.1 ≠ .ok none →
          (c.runCustom sorter cx receiver false (s', vec.values)).2.2 = vec.values)) ∧
      ((c.runVec sorter cx true vec s').1.1 = copied (c.runVec sorter cx false vec s) ∧
        (c.runVec sorter cx true vec s').2 = vec) ∧
      (c.runCustom sorter cx receiver true (s', vec.values)).1 = copied (c.runVec sorter cx false vec s) ∧
        (c.runCustom sorter cx receiver true (s', vec.values)).2.2 = vec.values) ∧
    -- `distinct`
    (∀ same : Value H → Value H → Bool, c.algorithm = .distinct →
      (∀ a b s, (c.equal cx a b s).1 = .ok (same a b)) → (∀ n, cx.room n = true) →
      (∀ a b c, same a b = true → same b c = true → same a c = true) → ∀ storage s,
        (c.edit sorter cx storage s).1.1 = .ok () ∧
        (c.edit sorter cx storage s).2.values = firstOccurrences same [] storage.values) ∧
    -- The fast path for scalars.
    (c.algorithm = .sort → (∀ s, (cx.poll s).1 = .ok ()) → ∀ storage sorted, c.sortScalars storage = .ok (some sorted) →
      ∀ s, ∃ t, storage.edit (fun _ encode items => sortItems sorter (c.order cx) encode items s) =
        ((.ok (), t), sorted)) ∧
    -- What is left in place, whatever fails.
    (c.algorithm.sorts = true → ∀ storage s, (c.edit sorter cx storage s).2.values.Perm storage.values) ∧
    (c.algorithm = .retain → ∀ storage s e, (c.edit sorter cx storage s).1.1 = .error e → ∃ before a rest kept t,
      storage.values = before ++ a :: rest ∧ keepAll c.keep before s = (.ok kept, t) ∧ (c.keep a t).1 = .error e ∧
      (c.edit sorter cx storage s).2.values = kept ++ a :: rest) ∧
    (c.algorithm = .dedup → ∀ storage s e, (c.edit sorter cx storage s).1.1 = .error e →
      ∃ first before a rest last kept t, storage.values = first :: (before ++ a :: rest) ∧
      distinguishAll (c.equal cx) first before s = (.ok (last, kept), t) ∧ (c.equal cx last a t).1 = .error e ∧
      (c.edit sorter cx storage s).2.values = first :: (kept ++ a :: rest)) := by
  refine ⟨?_, ?_, fun halg hpoll _ _ h s => sortScalars_eq hpoll halg h s,
    fun hsorts _ s => edit_sorts hsorts s, ?_, ?_⟩
  · intro h receiver vec hkind s s'
    exact ⟨fun halg => runCustom_edited sorter h halg hkind s s', runVec_copied sorter h vec s s',
      runCustom_copied sorter h hkind s s'⟩
  · intro same halg heql hroom htr storage s
    obtain ⟨t, ht⟩ := distinctItems_eq heql hroom htr storage.values s
    obtain ⟨hres, hvals⟩ := Prod.ext_iff.1 ((edit_distinct cx sorter storage halg s).trans ht)
    exact ⟨congrArg Prod.fst hres, hvals⟩
  · intro halg storage s e hfail
    obtain ⟨hres, hvals⟩ := Prod.ext_iff.1 (edit_retain cx sorter storage halg s)
    dsimp only at hres hvals
    rw [hres] at hfail
    rw [hvals]
    exact retainItems_failed hfail
  · intro halg storage s e hfail
    obtain ⟨hres, hvals⟩ := Prod.ext_iff.1 (edit_dedup cx sorter storage halg s)
    dsimp only at hres hvals
    rw [hres] at hfail
    rw [hvals]
    exact dedupItems_failed hfail

section Strings

/-- A heap whose strings and enumeration values are their numbers. -/
def numberedContext : CallContext Unit Nat where
  poll := .pure ()
  room _ := true
  floats := ⟨fun _ a _ => a, fun _ a _ => a, fun _ _ _ => false, fun _ _ _ => false⟩
  validateHandle _ _ := true
  string id _ := some [Char.ofNat id]
  rank id _ := some id
  scriptEqual a b _ := .ok (decide (a = b))
  ordering
    | .enum 0, _ => .ok .lt
    | .enum 1, _ => .ok .eq
    | .enum 2, _ => .ok .gt
    | _, _ => .error invalidOrdering

def numberedOrdering : Ordering → Value Nat
  | .lt => .enum 0
  | .eq => .enum 1
  | .gt => .enum 2

/-- `sort_by`, with a callback that compares strings. -/
def sortStrings (cmp : Nat → Nat → Ordering) : Comparison Unit Nat where
  operation := none
  callback := some fun
    | [.str a, .str b] => .pure (numberedOrdering (cmp a b))
    | _ => .fail invalidContract
  algorithm := .sortBy

/-- A list that holds its elements in a list. -/
def listReceiver : Receiver Unit Nat where
  element := none
  snapshot := fun (s, items) => (.ok (.traced items), s, items)
  set index value := fun (s, items) =>
    if index < items.length then (.ok (), s, items.set index value) else (.error invalidContract, s, items)
  remove index := fun (s, items) =>
    if index < items.length then (.ok (), s, items.eraseIdx index) else (.error invalidContract, s, items)
  snapshot_eq s items := ⟨.traced items, s, rfl, rfl, rfl⟩
  set_eq _ _ s _ h := ⟨s, if_pos h⟩
  remove_eq _ s _ h := ⟨s, if_pos h⟩

/-- An algorithm that compares by equality. -/
def equalItems (algorithm : Algorithm) : Comparison Unit Nat where
  operation := some ⟨none, none, fun
    | [a, b] => .pure (.bool (decide (a = b)))
    | _ => .fail invalidContract⟩
  callback := none
  algorithm := algorithm

theorem steady_numbered (c : Comparison Unit Nat) : Steady numberedContext c where
  poll _ := rfl
  room _ := rfl
  callback _ _ _ _ _ := rfl
  operation _ _ _ _ _ := rfl
  validateHandle _ _ _ := rfl
  string _ _ _ := rfl
  rank _ _ _ := rfl
  scriptEqual _ _ _ _ := rfl
  ordering _ _ _ := rfl

/-- A custom list is sorted and loses its repetitions as the `Vec` does, and `distinct` keeps first occurrences. -/
theorem list_paths_agree_strings :
    ((sortStrings compare).runCustom insertionSort numberedContext listReceiver false
      ((), [.str 2, .str 1, .str 3])).2.2 = [.str 1, .str 2, .str 3] ∧
    ((equalItems .dedup).runCustom insertionSort numberedContext listReceiver false
      ((), [.str 2, .str 2, .str 1, .str 2])).2.2 = [.str 2, .str 1, .str 2] ∧
    ((equalItems .distinct).edit insertionSort numberedContext
      (.traced [.str 2, .str 2, .str 1, .str 2]) ()).2.values = [.str 2, .str 1] := by
  refine ⟨?_, ?_, ?_⟩
  · have hagree := ((list_paths_agree insertionSort numberedContext (sortStrings compare)).1 (steady_numbered _)
      listReceiver (.traced [.str 2, .str 1, .str 3]) rfl () ()).1 (by decide)
    exact hagree.2.1 fun _ => rfl
  · have hagree := ((list_paths_agree insertionSort numberedContext (equalItems .dedup)).1 (steady_numbered _)
      listReceiver (.traced [.str 2, .str 2, .str 1, .str 2]) rfl () ()).1 (by decide)
    exact hagree.2.1 nofun
  · exact ((list_paths_agree insertionSort numberedContext (equalItems .distinct)).2.1 (fun a b => decide (a = b)) rfl
      (fun _ _ _ => rfl) (fun _ => rfl) (by grind) (.traced [.str 2, .str 2, .str 1, .str 2]) ()).2

/-- The strings up to 20, except that 20 is less than those up to 9. -/
def cyclic (a b : Nat) : Ordering :=
  if a = 20 ∧ b ≤ 9 then .lt else if b = 20 ∧ a ≤ 9 then .gt else compare a b

/-- A callback that orders no list consistently makes the sort of 21 strings trap: the `Vec` is left sorted as far as
the sort came, and the custom list as it was. -/
theorem list_paths_cyclic :
    Steady numberedContext (sortStrings cyclic) ∧
    ((sortStrings cyclic).runVec insertionSort numberedContext false
      (.traced ((1 :: 0 :: List.range' 2 19).map .str)) ()).1.1 = .error inconsistentOrder ∧
    ((sortStrings cyclic).runVec insertionSort numberedContext false
      (.traced ((1 :: 0 :: List.range' 2 19).map .str)) ()).2.values = (List.range' 0 21).map .str ∧
    ((sortStrings cyclic).runCustom insertionSort numberedContext listReceiver false
      ((), (1 :: 0 :: List.range' 2 19).map .str)).2.2 = (1 :: 0 :: List.range' 2 19).map .str ∧
    (1 :: 0 :: List.range' 2 19).map (Value.str (H := Nat)) ≠ (List.range' 0 21).map .str := by
  refine ⟨steady_numbered _, by rfl, by decide +kernel, by decide +kernel, by decide⟩

end Strings

end Kagari.Stdlib
