import Kagari.Stdlib.ListAlgorithms

/-!
# The paths of the list algorithms agree

Where callbacks answer the same for the same arguments (`Steady`), a custom list ends up as a `Vec` of the same elements
does, the copying forms return what the edits leave, and the fast path for scalars sorts as the comparisons do. A
failure leaves the elements that were not rejected (`retainItems_failed`, `dedupItems_failed`), or all of them, sorted
as far as the sort came.
-/

namespace Kagari.Stdlib

open Lib List
open Kagari.Runtime
open Hir (carrier)

variable {S H α β : Type}

/-! ## Calls with the same answers -/

variable {e : RuntimeError} {next : α → Call S β} {result : Except RuntimeError α} {s : S}

namespace Call

/-- A call whose result is the same in every world. -/
def Constant (call : Call S α) : Prop := ∀ s s', (call s).1 = (call s').1

theorem constant_pure (a : α) : (pure a : Call S α).Constant := fun _ _ => rfl

theorem constant_fail (e : RuntimeError) : (fail e : Call S α).Constant := fun _ _ => rfl

theorem constant_read {f : S → Except RuntimeError α} (h : ∀ s s', f s = f s') : (read f).Constant := h

variable {call : Call S α}

theorem Constant.bind (h : call.Constant) (hnext : ∀ a, (next a).Constant) :
    (call.bind next).Constant := by
  intro s s'
  have hsame := h s s'
  unfold Call.bind
  generalize call s = result at hsame
  generalize call s' = result' at hsame
  obtain ⟨answer, t⟩ := result
  obtain ⟨answer', t'⟩ := result'
  obtain rfl : answer = answer' := hsame
  cases answer with
  | error e => rfl
  | ok a => exact hnext a t t'

theorem bind_ok {s t : S} {a : α} (h : call s = (.ok a, t)) :
    call.bind next s = next a t := by
  unfold Call.bind
  rw [h]

theorem bind_error {s t : S} (h : call s = (.error e, t)) :
    call.bind next s = (.error e, t) := by
  unfold Call.bind
  rw [h]

theorem beside_eq {R : Type} {s t : S} (h : call s = (result, t))
    (r : R) : call.beside (s, r) = (result, t, r) := by
  simp only [Call.beside, h]

/-- A call with a known result. -/
theorem exists_world (h : (call s).1 = result) :
    ∃ t, call s = (result, t) := ⟨(call s).2, Prod.ext h rfl⟩

end Call

/-- Callbacks and operations answer the same for the same arguments, and memory and polls never fail. -/
structure Steady (cx : CallContext S H) (c : Comparison S H) : Prop where
  poll : ∀ s, (cx.poll s).1 = .ok ()
  room : ∀ n, cx.room n = true
  callback : ∀ callback, c.callback = some callback → ∀ args, (callback args).Constant
  operation : ∀ operation, c.operation = some operation → ∀ args, (operation.call args).Constant
  validateHandle : ∀ value s s', cx.validateHandle value s = cx.validateHandle value s'
  string : ∀ id s s', cx.string id s = cx.string id s'
  rank : ∀ id s s', cx.rank id s = cx.rank id s'
  scriptEqual : ∀ a b s s', cx.scriptEqual a b s = cx.scriptEqual a b s'
  ordering : ∀ value s s', cx.ordering value s = cx.ordering value s'

section Comparisons

variable {cx : CallContext S H} {c : Comparison S H}

theorem Steady.poll_constant (h : Steady cx c) : cx.poll.Constant := fun s s' => (h.poll s).trans (h.poll s').symm

theorem Steady.keep (h : Steady cx c) (value : Value H) : (c.keep value).Constant := by
  unfold Comparison.keep
  cases hcb : c.callback with
  | none => exact Call.constant_fail _
  | some callback => exact (h.callback callback hcb _).bind fun _ => Call.constant_read fun _ _ => rfl

theorem Steady.equal (h : Steady cx c) (a b : Value H) : (c.equal cx a b).Constant := by
  unfold Comparison.equal
  refine h.poll_constant.bind fun _ => ?_
  cases hoper : c.operation with
  | none => exact Call.constant_fail _
  | some operation =>
    dsimp only
    split
    · exact Call.constant_read (h.scriptEqual a b)
    · exact (h.operation operation hoper _).bind fun _ => Call.constant_read fun _ _ => rfl

theorem Steady.builtinOrder (h : Steady cx c) (a b : Value H) (s s' : S) :
    cx.builtinOrder a b s = cx.builtinOrder a b s' := by
  have hvld : ∀ value, cx.validateValue value s = cx.validateValue value s' := by
    intro value
    unfold CallContext.validateValue
    split
    all_goals first | rfl | exact h.validateHandle _ s s'
  have hstrg : ∀ id, cx.string id s = cx.string id s' := fun id => h.string id s s'
  have hrank : ∀ id, cx.rank id s = cx.rank id s' := fun id => h.rank id s s'
  unfold CallContext.builtinOrder
  simp only [hvld, hstrg, hrank]

theorem Steady.compareBy (h : Steady cx c) (a b : Value H) : (c.compareBy cx a b).Constant := by
  unfold Comparison.compareBy
  cases hoper : c.operation with
  | none => exact Call.constant_fail _
  | some operation =>
    dsimp only
    split
    · refine (Call.constant_read (h.builtinOrder a b)).bind fun order => ?_
      cases order with
      | none => exact Call.constant_fail _
      | some order => exact Call.constant_pure order
    · exact (h.operation operation hoper _).bind fun result => Call.constant_read (h.ordering result)

theorem Steady.order (h : Steady cx c) (a b : Value H) : (c.order cx a b).Constant := by
  unfold Comparison.order
  refine h.poll_constant.bind fun _ => ?_
  split
  · exact Call.constant_fail _
  · exact Call.constant_fail _
  next callback _ hcb =>
    exact (h.callback callback hcb _).bind fun result => Call.constant_read (h.ordering result)
  next selector _ hselr =>
    exact (h.callback selector hselr _).bind fun a => (h.callback selector hselr _).bind fun b =>
      h.compareBy a b
  · exact h.compareBy a b

theorem Steady.anySeen (h : Steady cx c) (value : Value H) (seen : List (Value H)) :
    (c.anySeen cx value seen).Constant := by
  induction seen with
  | nil => exact Call.constant_pure false
  | cons previous seen ih =>
    refine (h.equal value previous).bind fun same => ?_
    cases same with
    | true => exact Call.constant_pure true
    | false => exact ih

end Comparisons

/-! ## Edits in two worlds -/

variable {call : Call S Bool}

theorem guarded_ok {otherwise answer : Bool} {s t : S} (h : call s = (.ok answer, t)) :
    guarded otherwise call (none, s) = (answer, none, t) := by
  simp only [guarded, h]

theorem guarded_error {otherwise : Bool} {s t : S}
    (h : call s = (.error e, t)) : guarded otherwise call (none, s) = (otherwise, some e, t) := by
  simp only [guarded, h]

section Alike

variable {S' : Type} {R : S → S' → Prop}

theorem guarded_alike {call' : Call S' Bool} (otherwise : Bool)
    (h : ∀ s s', R s s' → (call s).1 = (call' s').1 ∧ R (call s).2 (call' s').2) (st : Option RuntimeError × S)
    (st' : Option RuntimeError × S') (hr : st.1 = st'.1 ∧ R st.2 st'.2) :
    (guarded otherwise call st).1 = (guarded otherwise call' st').1 ∧
      (guarded otherwise call st).2.1 = (guarded otherwise call' st').2.1 ∧
      R (guarded otherwise call st).2.2 (guarded otherwise call' st').2.2 := by
  obtain ⟨failure, s⟩ := st
  obtain ⟨failure', s'⟩ := st'
  obtain ⟨rfl, hr⟩ : failure = failure' ∧ R s s' := hr
  cases failure with
  | some e => exact ⟨rfl, rfl, hr⟩
  | none =>
    obtain ⟨hans, hnext⟩ := h s s' hr
    unfold guarded
    dsimp only
    generalize call s = result at hans hnext
    generalize call' s' = result' at hans hnext
    obtain ⟨answer, t⟩ := result
    obtain ⟨answer', t'⟩ := result'
    obtain rfl : answer = answer' := hans
    cases answer <;> exact ⟨rfl, rfl, hnext⟩

theorem retainItems_alike {keep : Value H → Call S Bool} {keep' : Value H → Call S' Bool}
    (h : ∀ value s s', R s s' → (keep value s).1 = (keep' value s').1 ∧ R (keep value s).2 (keep' value s').2)
    (encode : α → Value H) (items : List α) {s' : S'} (hr : R s s') :
    (retainItems keep encode items s).1.1 = (retainItems keep' encode items s').1.1 ∧
      (retainItems keep encode items s).2 = (retainItems keep' encode items s').2 := by
  obtain ⟨hits, hfailure, -⟩ := retain_alike (R := fun st st' => st.1 = st'.1 ∧ R st.2 st'.2)
    (fun a => guarded_alike true (h (encode a))) items (none, s) (none, s') ⟨rfl, hr⟩
  exact ⟨congrArg outcome hfailure, hits⟩

theorem dedupItems_alike {equal : Value H → Value H → Call S Bool} {equal' : Value H → Value H → Call S' Bool}
    (h : ∀ a b s s', R s s' → (equal a b s).1 = (equal' a b s').1 ∧ R (equal a b s).2 (equal' a b s').2)
    (encode : α → Value H) (items : List α) {s' : S'} (hr : R s s') :
    (dedupItems equal encode items s).1.1 = (dedupItems equal' encode items s').1.1 ∧
      (dedupItems equal encode items s).2 = (dedupItems equal' encode items s').2 := by
  obtain ⟨hits, hfailure, -⟩ := dedupBy_alike (R := fun st st' => st.1 = st'.1 ∧ R st.2 st'.2)
    (fun a b => guarded_alike false (h (encode b) (encode a))) items (none, s) (none, s') ⟨rfl, hr⟩
  exact ⟨congrArg outcome hfailure, hits⟩

theorem sortItems_alike (sorter : SortBy) {compare : Value H → Value H → Call S Ordering}
    {compare' : Value H → Value H → Call S' Ordering} (h : ∀ a b s s', (compare a b s).1 = (compare' a b s').1)
    (encode : α → Value H) (items : List α) (s : S) (s' : S') :
    (sortItems sorter compare encode items s).1.1 = (sortItems sorter compare' encode items s').1.1 ∧
      (sortItems sorter compare encode items s).2 = (sortItems sorter compare' encode items s').2 := by
  obtain ⟨hdone, hits, hfailure⟩ := Sorting.run_same
    (fun a b => h (encode a) (encode b)) (sorter.sorting items) none s s'
  unfold sortItems
  dsimp only
  rw [hdone, hfailure, hits]
  exact ⟨rfl, rfl⟩

theorem edit_alike (storage : SequenceStorage H)
    {f : ∀ α : Type, (α → Value H) → List α → (Except RuntimeError Unit × S) × List α}
    {f' : ∀ α : Type, (α → Value H) → List α → (Except RuntimeError Unit × S') × List α}
    (h : ∀ α encode items, (f α encode items).1.1 = (f' α encode items).1.1 ∧
      (f α encode items).2 = (f' α encode items).2) :
    (storage.edit f).1.1 = (storage.edit f').1.1 ∧ (storage.edit f).2 = (storage.edit f').2 := by
  cases storage with
  | scalar kind items =>
    obtain ⟨hres, hits⟩ := h kind.Carrier kind.encode items
    exact ⟨hres, congrArg (SequenceStorage.scalar kind) hits⟩
  | traced items =>
    obtain ⟨hres, hits⟩ := h (Value H) id items
    exact ⟨hres, congrArg SequenceStorage.traced hits⟩

end Alike

section Agreement

variable {cx : CallContext S H} {c : Comparison S H}

theorem Steady.fresh (h : Steady cx c) (value : Value H) (st st' : S × List (Value H)) (hseen : st.2 = st'.2) :
    (c.fresh cx value st).1 = (c.fresh cx value st').1 ∧ (c.fresh cx value st).2.2 = (c.fresh cx value st').2.2 := by
  obtain ⟨s, seen⟩ := st
  obtain ⟨s', seen'⟩ := st'
  obtain rfl : seen = seen' := hseen
  have hsame := h.anySeen value seen s s'
  unfold Comparison.fresh
  dsimp only
  generalize c.anySeen cx value seen s = result at hsame
  generalize c.anySeen cx value seen s' = result' at hsame
  obtain ⟨answer, t⟩ := result
  obtain ⟨answer', t'⟩ := result'
  obtain rfl : answer = answer' := hsame
  cases answer with
  | error e => exact ⟨rfl, rfl⟩
  | ok same =>
    cases same with
    | true => exact ⟨rfl, rfl⟩
    | false =>
      dsimp only
      split <;> exact ⟨rfl, rfl⟩

/-- An edit has the same result in every world. -/
theorem Steady.edit (h : Steady cx c) (sorter : SortBy) (storage : SequenceStorage H) (s s' : S) :
    (c.edit sorter cx storage s).1.1 = (c.edit sorter cx storage s').1.1 ∧
      (c.edit sorter cx storage s).2 = (c.edit sorter cx storage s').2 := by
  have hsort := edit_alike storage fun α encode items =>
    sortItems_alike sorter (fun a b => h.order a b) encode items s s'
  unfold Comparison.edit
  cases c.algorithm with
  | reverse => exact ⟨rfl, rfl⟩
  | retain =>
    exact edit_alike storage fun α encode items =>
      retainItems_alike (R := fun _ _ => True) (fun value t t' _ => ⟨h.keep value t t', trivial⟩) encode items trivial
  | dedup =>
    exact edit_alike storage fun α encode items =>
      dedupItems_alike (R := fun _ _ => True) (fun a b t t' _ => ⟨h.equal a b t t', trivial⟩) encode items trivial
  | distinct =>
    exact edit_alike storage fun α encode items =>
      retainItems_alike (R := fun st st' => st.2 = st'.2) (fun value => h.fresh value) encode items rfl
  | sort =>
    dsimp only
    cases c.sortScalars storage with
    | error e => exact ⟨rfl, rfl⟩
    | ok sorted =>
      cases sorted with
      | some sorted => exact ⟨rfl, rfl⟩
      | none => exact hsort
  | sortBy => exact hsort
  | sortByKey => exact hsort

end Agreement

/-! ## Edits of a custom list -/

variable (receiver : Receiver S H)

section Custom

variable {cx : CallContext S H} {c : Comparison S H}

/-- After a failure nothing is rejected. -/
theorem retain_guarded_failed (keep : α → Call S Bool) (items : List α) (e : RuntimeError) (s : S) :
    retain (fun a => guarded true (keep a)) items (some e, s) = (items, some e, s) := by
  induction items with
  | nil => rfl
  | cons a items ih =>
    unfold retain
    simp only [guarded]
    rw [ih]

theorem dedupFrom_guarded_failed (equal : α → α → Call S Bool) (items : List α) (e : RuntimeError) (s : S) :
    ∀ previous : α, dedupFrom (fun next previous => guarded false (equal previous next)) previous items (some e, s) =
      (items, some e, s) := by
  induction items with
  | nil => exact fun _ => rfl
  | cons a items ih =>
    intro previous
    unfold dedupFrom
    simp only [guarded]
    rw [ih]

theorem eraseIdx_middle (before : List α) (a : α) (rest : List α) :
    (before ++ a :: rest).eraseIdx before.length = before ++ rest := by
  rw [eraseIdx_append_of_length_le (Nat.le_refl _), Nat.sub_self]
  rfl

/-- What one round of the loop does, with the answer for its value. -/
theorem editLoop_step (hpoll : ∀ s, (cx.poll s).1 = .ok ())
    {previous : Option (Value H)} {value : Value H}
    {answer : Except RuntimeError Bool} (hans : ∀ s, (c.keeps cx previous value s).1 = answer)
    (before rest : List (Value H)) (s : S) : ∃ s',
      c.editLoop cx receiver previous before.length (value :: rest) (s, before ++ value :: rest) = match answer with
        | .error e => (.error e, s', before ++ value :: rest)
        | .ok true => c.editLoop cx receiver (some value) (before ++ [value]).length rest
          (s', (before ++ [value]) ++ rest)
        | .ok false => c.editLoop cx receiver previous before.length rest (s', before ++ rest) := by
  obtain ⟨polled, hpolled⟩ := Call.exists_world (hpoll s)
  obtain ⟨t, ht⟩ := Call.exists_world (hans polled)
  have hround : (Call.beside (cx.poll.bind fun _ => c.keeps cx previous value)) (s, before ++ value :: rest) =
      (answer, t, before ++ value :: rest) := Call.beside_eq ((Call.bind_ok hpolled).trans ht) _
  rw [Comparison.editLoop]
  cases answer with
  | error e => exact ⟨t, Call.bind_error hround⟩
  | ok keep =>
    rw [Call.bind_ok hround]
    cases keep with
    | true => exact ⟨t, by simp⟩
    | false =>
      obtain ⟨t', hrem⟩ := receiver.remove_eq before.length t (before ++ value :: rest) (by simp)
      rw [eraseIdx_middle] at hrem
      exact ⟨t', Call.bind_ok hrem⟩

/-- The loop keeps what `retain` keeps. -/
theorem editLoop_retain (h : Steady cx c) (halg : c.algorithm = .retain)
    (rest : List (Value H)) :
    ∀ (previous : Option (Value H)) (before : List (Value H)) (s t : S), ∃ s',
      c.editLoop cx receiver previous before.length rest (s, before ++ rest) =
        (outcome (retain (fun value => guarded true (c.keep value)) rest (none, t)).2.1, s',
          before ++ (retain (fun value => guarded true (c.keep value)) rest (none, t)).1) := by
  induction rest with
  | nil => exact fun _ before s _ => ⟨s, rfl⟩
  | cons value rest ih =>
    intro previous before s t
    obtain ⟨answer, t', ht⟩ : ∃ answer t', c.keep value t = (answer, t') := ⟨_, _, rfl⟩
    have hans : ∀ s, (c.keeps cx previous value s).1 = answer := by
      intro s
      unfold Comparison.keeps
      rw [if_pos halg, h.keep value s t, ht]
    obtain ⟨s', hstep⟩ := editLoop_step receiver h.poll hans before rest s
    rw [hstep, retain]
    cases answer with
    | error e =>
      rw [guarded_error ht]
      exact ⟨s', by simp [retain_guarded_failed, outcome]⟩
    | ok keep =>
      rw [guarded_ok ht]
      cases keep with
      | true =>
        obtain ⟨final, hfin⟩ := ih (some value) (before ++ [value]) s' t'
        exact ⟨final, by simpa using hfin⟩
      | false => exact ih previous before s' t'

/-- The loop drops what `dedup_by` drops. -/
theorem editLoop_dedup (h : Steady cx c) (halg : c.algorithm = .dedup)
    (rest : List (Value H)) :
    ∀ (previous : Value H) (before : List (Value H)) (s t : S), ∃ s',
      c.editLoop cx receiver (some previous) before.length rest (s, before ++ rest) =
        let left := dedupFrom (fun next previous => guarded false (c.equal cx previous next)) previous rest (none, t)
        (outcome left.2.1, s', before ++ left.1) := by
  induction rest with
  | nil => exact fun _ before s _ => ⟨s, rfl⟩
  | cons value rest ih =>
    intro previous before s t
    obtain ⟨answer, t', ht⟩ : ∃ answer t', c.equal cx previous value t = (answer, t') := ⟨_, _, rfl⟩
    have hans : ∀ s, (c.keeps cx (some previous) value s).1 = answer.map (!·) := by
      intro s
      obtain ⟨u, hu⟩ := Call.exists_world (h.equal previous value s t)
      rw [ht] at hu
      unfold Comparison.keeps
      rw [if_neg (by rw [halg]; decide)]
      dsimp only
      cases answer with
      | error e => rw [Call.bind_error hu]; rfl
      | ok same => rw [Call.bind_ok hu]; rfl
    obtain ⟨s', hstep⟩ := editLoop_step receiver h.poll hans before rest s
    rw [hstep, dedupFrom]
    cases answer with
    | error e =>
      rw [guarded_error ht]
      exact ⟨s', by simp [dedupFrom_guarded_failed, outcome, Except.map]⟩
    | ok same =>
      rw [guarded_ok ht]
      cases same with
      | true => exact ih previous before s' t'
      | false =>
        obtain ⟨final, hfin⟩ := ih value (before ++ [value]) s' t'
        exact ⟨final, by simpa [Except.map] using hfin⟩

/-- A snapshot is written back, element by element. -/
theorem setLoop_eq (hpoll : ∀ s, (cx.poll s).1 = .ok ()) (values : List (Value H)) (n : Nat) :
    ∀ (k : Nat) (rest : List (Value H)) (s : S), rest.length = n → k + n = values.length → ∃ s',
      Comparison.setLoop cx receiver values (List.range' k n) (s, values.take k ++ rest) = (.ok (), s', values) := by
  induction n with
  | zero =>
    intro k rest s hrest hlen
    obtain rfl := length_eq_zero_iff.1 hrest
    refine ⟨s, ?_⟩
    rw [take_of_length_le (by omega), append_nil]
    rfl
  | succ n ih =>
    intro k rest s hrest hlen
    obtain ⟨value, rest, rfl⟩ := exists_cons_of_length_eq_add_one hrest
    have hat : values[k]? = some values[k] := getElem?_eq_getElem (by omega)
    have htake : (values.take k).length = k := by
      rw [length_take]
      omega
    obtain ⟨t, hpolled⟩ := Call.exists_world (hpoll s)
    obtain ⟨t', hset⟩ := receiver.set_eq k values[k] t (values.take k ++ value :: rest) (by simp; omega)
    rw [set_append_right _ _ (by omega), htake, Nat.sub_self, set_cons_zero] at hset
    obtain ⟨final, hfin⟩ := ih (k + 1) rest t' (by simpa using hrest) (by omega)
    rw [take_succ_eq_append_getElem (by omega), append_assoc] at hfin
    refine ⟨final, ?_⟩
    rw [List.range'_succ, Comparison.setLoop, Call.bind_ok (Call.beside_eq hpolled _), hat]
    exact (Call.bind_ok hset).trans hfin

end Custom

end Kagari.Stdlib
