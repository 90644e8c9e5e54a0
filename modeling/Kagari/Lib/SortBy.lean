import Mathlib.Data.List.Perm.Basic

/-!
# Edits of a list that ask

A sort by comparisons is a tree of questions (`Sorting`): its ends are sorted lists, or lists left behind by a panic.
`SortBy` is a sort that meets its documentation: it loses no element, and sorts by a comparison that is a total order.
Questions may also be answered by calls that change a state and fail; after the first failure no call is made
(`Sorting.run`). `retain` and `dedupBy` ask about each element once, in order.

`insertionSort` is such a sort; a list that is not small is checked again, and the sort panics where the order is not
consistent.
-/

namespace Lib

open List

inductive Sorting (α : Type) where
  | done (items : List α)
  | panic (items : List α)
  | ask (left right : α) (answer : Ordering → Sorting α)

namespace Sorting

variable {α S E : Type} {P : List α → Prop}

/-- Whatever the answers, the list at the end has a property. -/
def Ends (P : List α → Prop) : Sorting α → Prop
  | done items => P items
  | panic items => P items
  | ask _ _ next => ∀ answer, (next answer).Ends P

/-- Whether the sort is done, and its list. -/
def answered (cmp : α → α → Ordering) : Sorting α → Bool × List α
  | done items => (true, items)
  | panic items => (false, items)
  | ask left right next => (next (cmp left right)).answered cmp

/-- The outcome of a sort whose questions are calls: whether it is done, its list, the failure and the state. -/
structure Outcome (α E S : Type) where
  done : Bool
  items : List α
  failure : Option E
  state : S

/-- Once a call has failed, every answer is that the elements are equal. -/
def run (compare : α → α → S → Except E Ordering × S) : Sorting α → Option E → S → Outcome α E S
  | done items, failure, s => ⟨true, items, failure, s⟩
  | panic items, failure, s => ⟨false, items, failure, s⟩
  | ask _ _ next, some e, s => (next .eq).run compare (some e) s
  | ask left right next, none, s =>
    match compare left right s with
    | (.ok answer, s) => (next answer).run compare none s
    | (.error e, s) => (next .eq).run compare (some e) s

variable {compare : α → α → S → Except E Ordering × S}

variable {t : Sorting α}

theorem Ends.run (h : t.Ends P) :
    ∀ (failure : Option E) (s : S), P (t.run compare failure s).items := by
  induction t with
  | done items => exact fun _ _ => h
  | panic items => exact fun _ _ => h
  | ask left right next ih =>
    intro failure s
    cases failure with
    | some e => exact ih _ (h _) _ _
    | none =>
      unfold Sorting.run
      split <;> exact ih _ (h _) _ _

theorem Ends.answered (h : t.Ends P) (cmp : α → α → Ordering) : P (t.answered cmp).2 := by
  induction t with
  | done items => exact h
  | panic items => exact h
  | ask left right next ih => exact ih _ (h _)

/-- Calls whose answers do not depend on the state. -/
theorem run_answered {cmp : α → α → Ordering}
    (h : ∀ left right s, (compare left right s).1 = .ok (cmp left right)) (t : Sorting α) : ∀ s : S,
      ((t.run compare none s).done, (t.run compare none s).items) = t.answered cmp ∧
      (t.run compare none s).failure = none := by
  induction t with
  | done items => exact fun _ => ⟨rfl, rfl⟩
  | panic items => exact fun _ => ⟨rfl, rfl⟩
  | ask left right next ih =>
    intro s
    have hans := h left right s
    unfold run answered
    generalize compare left right s = result at hans
    obtain ⟨answer, s'⟩ := result
    obtain rfl : answer = .ok (cmp left right) := hans
    exact ih _ s'

/-- The same calls in two states have the same answers, and so the same outcome. -/
theorem run_same {S' : Type}
    {compare' : α → α → S' → Except E Ordering × S'} (h : ∀ left right s s',
      (compare left right s).1 = (compare' left right s').1) (t : Sorting α) : ∀ (failure : Option E) (s : S) (s' : S'),
      (t.run compare failure s).done = (t.run compare' failure s').done ∧
      (t.run compare failure s).items = (t.run compare' failure s').items ∧
      (t.run compare failure s).failure = (t.run compare' failure s').failure := by
  induction t with
  | done items => exact fun _ _ _ => ⟨rfl, rfl, rfl⟩
  | panic items => exact fun _ _ _ => ⟨rfl, rfl, rfl⟩
  | ask left right next ih =>
    intro failure s s'
    cases failure with
    | some e => exact ih _ _ _ _
    | none =>
      have hsame := h left right s s'
      unfold run
      generalize compare left right s = result at hsame
      generalize compare' left right s' = result' at hsame
      obtain ⟨answer, next⟩ := result
      obtain ⟨answer', next'⟩ := result'
      obtain rfl : answer = answer' := hsame
      cases answer <;> exact ih _ _ _ _

end Sorting

/-- A sort by comparisons that keeps every element, and sorts by a total order. -/
structure SortBy where
  sorting {α : Type} : List α → Sorting α
  permutes {α : Type} (items : List α) : (sorting items).Ends (·.Perm items)
  sorts {α : Type} (items : List α) (cmp : α → α → Ordering) [Std.TransCmp cmp] :
    ((sorting items).answered cmp).1 = true ∧ ((sorting items).answered cmp).2.Pairwise fun a b => cmp a b ≠ .gt

namespace SortBy

variable {α : Type}

/-- A sort by an order in which no two elements are equal has one result. -/
theorem unique (sorter : SortBy) {items sorted : List α} {cmp : α → α → Ordering} [Std.TransCmp cmp]
    (hcmp : ∀ a b, cmp a b = .eq → a = b) (hperm : sorted.Perm items)
    (hsrtd : sorted.Pairwise fun a b => cmp a b ≠ .gt) :
    (sorter.sorting items).answered cmp = (true, sorted) := by
  obtain ⟨hdone, hown⟩ := sorter.sorts items cmp
  have hpermutes := (sorter.permutes items).answered cmp
  refine Prod.ext hdone ((hpermutes.trans hperm.symm).eq_of_pairwise (fun a b _ _ hab hba => hcmp a b ?_) hown hsrtd)
  have hswap : cmp b a = (cmp a b).swap := Std.OrientedCmp.eq_swap
  rw [hswap] at hba
  cases h : cmp a b <;> simp_all

end SortBy

/-! ## Insertion -/

namespace Sorting

variable {α : Type}

/-- Inserts behind the elements that are not greater; the list has the greatest first. -/
def insert (a : α) : List α → (List α → Sorting α) → Sorting α
  | [], next => next [a]
  | b :: rest, next => ask a b fun answer =>
    if answer = .lt then insert a rest fun inserted => next (b :: inserted) else next (a :: b :: rest)

def insertAll : List α → List α → (List α → Sorting α) → Sorting α
  | [], sorted, next => next sorted
  | a :: items, sorted, next => insert a sorted fun sorted => insertAll items sorted next

/-- Asks about an element and those behind it. -/
def checkOne (items : List α) (a : α) : List α → Sorting α → Sorting α
  | [], next => next
  | b :: rest, next => ask a b fun answer => if answer = .gt then panic items else checkOne items a rest next

def check (items : List α) : List α → Sorting α
  | [] => done items
  | a :: rest => checkOne items a rest (check items rest)

def insertion (items : List α) : Sorting α :=
  insertAll items [] fun sorted =>
    if items.length ≤ 20 then done sorted.reverse else check sorted.reverse sorted.reverse

variable {P : List α → Prop}

theorem ends_insert (a : α) (sorted : List α) : ∀ {next : List α → Sorting α},
    (∀ inserted, inserted.Perm (a :: sorted) → (next inserted).Ends P) → (insert a sorted next).Ends P := by
  induction sorted with
  | nil => exact fun h => h _ (.refl _)
  | cons b rest ih =>
    intro next h answer
    dsimp only
    split
    · refine ih fun inserted hperm => h _ ?_
      exact (hperm.cons b).trans (.swap a b rest)
    · exact h _ (.refl _)

theorem ends_insertAll (items : List α) : ∀ {sorted : List α} {next : List α → Sorting α},
    (∀ all, all.Perm (items ++ sorted) → (next all).Ends P) → (insertAll items sorted next).Ends P := by
  induction items with
  | nil => exact fun h => h _ (.refl _)
  | cons a items ih =>
    intro sorted next h
    refine ends_insert a sorted fun inserted hperm => ih fun all hall => h _ ?_
    exact hall.trans ((hperm.append_left items).trans perm_middle)

variable {items : List α}

theorem ends_checkOne (h : P items) (a : α) (rest : List α) {next : Sorting α}
    (hnext : next.Ends P) : (checkOne items a rest next).Ends P := by
  induction rest with
  | nil => exact hnext
  | cons b rest ih =>
    intro answer
    dsimp only
    split
    · exact h
    · exact ih

theorem ends_check (h : P items) (rest : List α) : (check items rest).Ends P := by
  induction rest with
  | nil => exact h
  | cons a rest ih => exact ends_checkOne h a rest ih

section Total

variable {cmp : α → α → Ordering} [Std.TransCmp cmp]

/-- An element is inserted where the list stays sorted. -/
theorem answered_insert (a : α) (sorted : List α) : ∀ next : List α → Sorting α,
    sorted.Pairwise (fun x y => cmp y x ≠ .gt) → ∃ inserted,
      (insert a sorted next).answered cmp = (next inserted).answered cmp ∧
      inserted.Perm (a :: sorted) ∧ inserted.Pairwise fun x y => cmp y x ≠ .gt := by
  induction sorted with
  | nil => exact fun _ _ => ⟨[a], rfl, .refl _, pairwise_singleton _ _⟩
  | cons b rest ih =>
    intro next h
    obtain ⟨hb, hrest⟩ := pairwise_cons.1 h
    have hstep : (insert a (b :: rest) next).answered cmp = (if cmp a b = .lt
        then insert a rest fun inserted => next (b :: inserted) else next (a :: b :: rest)).answered cmp := rfl
    rw [hstep]
    split
    next hlt =>
      obtain ⟨inserted, hanswered, hperm, hsrtd⟩ := ih (fun inserted => next (b :: inserted)) hrest
      refine ⟨b :: inserted, hanswered, (hperm.cons b).trans (.swap a b rest), pairwise_cons.2 ⟨?_, hsrtd⟩⟩
      intro c hc
      rcases mem_cons.1 (hperm.subset hc) with rfl | hc
      · rw [hlt]
        exact nofun
      · exact hb c hc
    next hge =>
      refine ⟨a :: b :: rest, rfl, .refl _, pairwise_cons.2 ⟨?_, h⟩⟩
      have hba : cmp b a ≠ .gt := fun hgt => hge (Std.OrientedCmp.gt_iff_lt.1 hgt)
      intro c hc
      rcases mem_cons.1 hc with rfl | hc
      · exact hba
      · have hcb := hb c hc
        exact Ordering.isLE_iff_ne_gt.1 (Std.TransCmp.isLE_trans (Ordering.isLE_iff_ne_gt.2 hcb)
          (Ordering.isLE_iff_ne_gt.2 hba))

variable (cmp) in
theorem answered_insertAll (items : List α) : ∀ {sorted : List α} (next : List α → Sorting α),
    sorted.Pairwise (fun x y => cmp y x ≠ .gt) → ∃ all,
      (insertAll items sorted next).answered cmp = (next all).answered cmp ∧
      all.Pairwise fun x y => cmp y x ≠ .gt := by
  induction items with
  | nil => exact fun _ h => ⟨_, rfl, h⟩
  | cons a items ih =>
    intro sorted next h
    obtain ⟨inserted, hanswered, -, hsrtd⟩ :=
      answered_insert a sorted (fun sorted => insertAll items sorted next) h
    obtain ⟨all, hall, hfin⟩ := ih next hsrtd
    exact ⟨all, hanswered.trans hall, hfin⟩

omit [Std.TransCmp cmp] in
theorem answered_check (items rest : List α) (h : rest.Pairwise fun a b => cmp a b ≠ .gt) :
    (check items rest).answered cmp = (true, items) := by
  induction rest with
  | nil => rfl
  | cons a rest ih =>
    obtain ⟨ha, hrest⟩ := pairwise_cons.1 h
    unfold check
    revert ha
    generalize check items rest = next at ih
    replace ih := ih hrest
    clear h hrest
    induction rest with
    | nil => exact fun _ => ih
    | cons b rest ihrest =>
      intro ha
      unfold checkOne answered
      dsimp only
      rw [if_neg (ha b mem_cons_self)]
      exact ihrest fun c hc => ha c (mem_cons_of_mem _ hc)

end Total

end Sorting

/-- Insertion, which panics where a list of more than 20 elements shows an order that is not consistent. -/
def insertionSort : SortBy where
  sorting := Sorting.insertion
  permutes items := by
    refine Sorting.ends_insertAll items fun all hall => ?_
    have hperm : all.reverse.Perm items := (List.reverse_perm all).trans (by simpa using hall)
    split
    · exact hperm
    · exact Sorting.ends_check (P := (·.Perm items)) hperm _
  sorts items cmp := by
    intro _
    obtain ⟨all, hall, hsrtd⟩ := Sorting.answered_insertAll cmp items (fun sorted =>
      if items.length ≤ 20 then .done sorted.reverse else .check sorted.reverse sorted.reverse) .nil
    have hrevs : all.reverse.Pairwise fun a b => cmp a b ≠ .gt := List.pairwise_reverse.2 hsrtd
    have hres : (Sorting.insertion items).answered cmp = (true, all.reverse) := by
      refine hall.trans ?_
      split
      · rfl
      · exact Sorting.answered_check _ _ hrevs
    rw [hres]
    exact ⟨rfl, hrevs⟩

/-! ## Edits that ask about each element -/

variable {β : Type}

section Edits

variable {α S : Type}

/-- `Vec::retain`. -/
def retain (keep : α → S → Bool × S) : List α → S → List α × S
  | [], s => ([], s)
  | a :: items, s =>
    match keep a s with
    | (true, s) =>
      let (rest, s) := retain keep items s
      (a :: rest, s)
    | (false, s) => retain keep items s

/-- The loop of `dedupBy`, behind an element that stays. -/
def dedupFrom (same : α → α → S → Bool × S) (previous : α) : List α → S → List α × S
  | [], s => ([], s)
  | a :: items, s =>
    match same a previous s with
    | (true, s) => dedupFrom same previous items s
    | (false, s) =>
      let (rest, s) := dedupFrom same a items s
      (a :: rest, s)

/-- `Vec::dedup_by`: an element that is the same as the one kept before it is dropped. -/
def dedupBy (same : α → α → S → Bool × S) : List α → S → List α × S
  | [], s => ([], s)
  | a :: items, s =>
    let (rest, s) := dedupFrom same a items s
    (a :: rest, s)

theorem retain_map (f : α → β) (keep : β → S → Bool × S) (items : List α) : ∀ s : S,
    retain keep (items.map f) s =
      ((retain (fun a => keep (f a)) items s).1.map f, (retain (fun a => keep (f a)) items s).2) := by
  induction items with
  | nil => exact fun _ => rfl
  | cons a items ih =>
    intro s
    rw [map_cons]
    unfold retain
    split
    · dsimp only
      rw [ih]
      rfl
    · exact ih _

theorem dedupFrom_map (f : α → β) (same : β → β → S → Bool × S) (items : List α) : ∀ (previous : α) (s : S),
    dedupFrom same (f previous) (items.map f) s =
      ((dedupFrom (fun a b => same (f a) (f b)) previous items s).1.map f,
        (dedupFrom (fun a b => same (f a) (f b)) previous items s).2) := by
  induction items with
  | nil => exact fun _ _ => rfl
  | cons a items ih =>
    intro previous s
    rw [map_cons]
    unfold dedupFrom
    split
    · exact ih _ _
    · dsimp only
      rw [ih]
      rfl

theorem dedupBy_map (f : α → β) (same : β → β → S → Bool × S) (items : List α) (s : S) :
    dedupBy same (items.map f) s = ((dedupBy (fun a b => same (f a) (f b)) items s).1.map f,
      (dedupBy (fun a b => same (f a) (f b)) items s).2) := by
  cases items with
  | nil => rfl
  | cons a items =>
    rw [map_cons]
    unfold dedupBy
    dsimp only
    rw [dedupFrom_map]
    rfl

variable {same : α → α → S → Bool × S}

section Simulation

variable {S' : Type} {R : S → S' → Prop}

/-- Closures that answer alike in related states keep the same elements. -/
theorem retain_alike {keep : α → S → Bool × S} {keep' : α → S' → Bool × S'}
    (h : ∀ a s s', R s s' → (keep a s).1 = (keep' a s').1 ∧ R (keep a s).2 (keep' a s').2) (items : List α) :
    ∀ s s', R s s' → (retain keep items s).1 = (retain keep' items s').1 ∧
      R (retain keep items s).2 (retain keep' items s').2 := by
  induction items with
  | nil => exact fun _ _ hr => ⟨rfl, hr⟩
  | cons a items ih =>
    intro s s' hr
    obtain ⟨hans, hnext⟩ := h a s s' hr
    unfold retain
    generalize keep a s = result at hans hnext
    generalize keep' a s' = result' at hans hnext
    obtain ⟨answer, t⟩ := result
    obtain ⟨answer', t'⟩ := result'
    obtain rfl : answer = answer' := hans
    cases answer with
    | false => exact ih _ _ hnext
    | true =>
      obtain ⟨hrest, hlast⟩ := ih _ _ hnext
      dsimp only
      rw [hrest]
      exact ⟨rfl, hlast⟩

variable {same' : α → α → S' → Bool × S'}

theorem dedupFrom_alike
    (h : ∀ a b s s', R s s' → (same a b s).1 = (same' a b s').1 ∧ R (same a b s).2 (same' a b s').2) (items : List α) :
    ∀ (previous : α) {s s'}, R s s' →
      (dedupFrom same previous items s).1 = (dedupFrom same' previous items s').1 ∧
      R (dedupFrom same previous items s).2 (dedupFrom same' previous items s').2 := by
  induction items with
  | nil => exact fun _ _ _ hr => ⟨rfl, hr⟩
  | cons a items ih =>
    intro previous s s' hr
    obtain ⟨hans, hnext⟩ := h a previous s s' hr
    unfold dedupFrom
    generalize same a previous s = result at hans hnext
    generalize same' a previous s' = result' at hans hnext
    obtain ⟨answer, t⟩ := result
    obtain ⟨answer', t'⟩ := result'
    obtain rfl : answer = answer' := hans
    cases answer with
    | true => exact ih _ hnext
    | false =>
      obtain ⟨hrest, hlast⟩ := ih a hnext
      dsimp only
      rw [hrest]
      exact ⟨rfl, hlast⟩

theorem dedupBy_alike
    (h : ∀ a b s s', R s s' → (same a b s).1 = (same' a b s').1 ∧ R (same a b s).2 (same' a b s').2) (items : List α)
    (s : S) (s' : S') (hr : R s s') : (dedupBy same items s).1 = (dedupBy same' items s').1 ∧
      R (dedupBy same items s).2 (dedupBy same' items s').2 := by
  cases items with
  | nil => exact ⟨rfl, hr⟩
  | cons a items =>
    obtain ⟨hrest, hlast⟩ := dedupFrom_alike h items a hr
    unfold dedupBy
    dsimp only
    rw [hrest]
    exact ⟨rfl, hlast⟩

end Simulation

end Edits

end Lib
