import Mathlib.Data.List.Infix
import Mathlib.Data.List.TakeWhile

/-!
# Routes in a tree

A position in a tree is the list of names from the root down to it. A route is a list of steps, each
up to the parent or down to a name.

- `walk`: follows a route; it fails where a step leads above the root (`walk_none`)
- `route`: the way from one position to another, over their common ancestor (`walk_route`)
- `settle`: cancels every step down against the step up behind it. What is left goes up first, then
  down (`settle_form`); it stays as it is (`settle_self`), and it is where a walk leads (`settle_walk`)
-/

namespace Lib.Route

open List

inductive Step (α : Type) where
  | up
  | down (name : α)
deriving DecidableEq

variable {α : Type}

/-! ## Walking -/

def walk : List α → List (Step α) → Option (List α)
  | position, [] => some position
  | position, .down name :: steps => walk (position ++ [name]) steps
  | position, .up :: steps => if position = [] then none else walk position.dropLast steps

theorem walk_append (position : List α) (steps steps' : List (Step α)) :
    walk position (steps ++ steps') = (walk position steps).bind fun reached => walk reached steps' := by
  induction steps generalizing position with
  | nil => rfl
  | cons step steps ih =>
    cases step with
    | down name => simp only [cons_append, walk, ih]
    | up =>
      simp only [cons_append, walk, ih]
      split <;> rfl

theorem walk_down (position names : List α) :
    walk position (names.map .down) = some (position ++ names) := by
  induction names generalizing position with
  | nil => simp [walk]
  | cons name names ih => simp [walk, ih]

theorem walk_up (position names : List α) (steps : List (Step α)) :
    walk (position ++ names) (List.replicate names.length .up ++ steps) = walk position steps := by
  induction names using List.reverseRecOn with
  | nil => simp
  | append_singleton names name ih =>
    rw [length_append, length_singleton, replicate_succ, cons_append, walk,
      if_neg (by simp), ← append_assoc, dropLast_concat, ih]

variable {steps : List (Step α)}

/-- Every name of the position reached was there or is stepped down to. -/
theorem mem_of_walk {position reached : List α}
    (h : walk position steps = some reached) {name : α} (hname : name ∈ reached) :
    name ∈ position ∨ .down name ∈ steps := by
  induction steps generalizing position with
  | nil =>
    simp only [walk, Option.some.injEq] at h
    exact .inl (h ▸ hname)
  | cons step steps ih =>
    cases step with
    | down other =>
      rcases ih h with hpos | hsteps
      · rcases mem_append.mp hpos with hpos | hlast
        · exact .inl hpos
        · rw [mem_singleton.mp hlast]
          exact .inr mem_cons_self
      · exact .inr (mem_cons_of_mem _ hsteps)
    | up =>
      simp only [walk] at h
      split at h
      · cases h
      · rcases ih h with hpos | hsteps
        · exact .inl (mem_of_mem_dropLast hpos)
        · exact .inr (mem_cons_of_mem _ hsteps)

/-! ## Above the root -/

def ups (steps : List (Step α)) : Nat := steps.countP fun step => step matches .up

def downs (steps : List (Step α)) : Nat := steps.countP fun step => step matches .down _

/-- Some of the first steps go up more often than the position is deep and they go down. -/
def Climbs (depth : Nat) (steps : List (Step α)) : Prop :=
  ∃ first, first <+: steps ∧ depth + downs first < ups first

theorem not_climbs_nil (depth : Nat) : ¬ Climbs depth ([] : List (Step α)) := by
  rintro ⟨first, hfst, h⟩
  rw [prefix_nil.mp hfst] at h
  exact Nat.not_lt_zero _ h

variable {depth : Nat}

theorem climbs_down {name : α} :
    Climbs depth (.down name :: steps) ↔ Climbs (depth + 1) steps := by
  constructor
  · rintro ⟨first, hfst, h⟩
    rcases prefix_cons_iff.mp hfst with rfl | ⟨rest, rfl, hrest⟩
    · exact absurd h (Nat.not_lt_zero _)
    · exact ⟨rest, hrest, by simpa [ups, downs, Nat.add_assoc, Nat.add_comm 1] using h⟩
  · rintro ⟨rest, hrest, h⟩
    exact ⟨.down name :: rest, cons_prefix_cons.mpr ⟨rfl, hrest⟩,
      by simpa [ups, downs, Nat.add_assoc, Nat.add_comm 1] using h⟩

theorem climbs_root (steps : List (Step α)) : Climbs 0 (.up :: steps) :=
  ⟨[.up], ⟨steps, rfl⟩, by simp [ups, downs]⟩

theorem climbs_up :
    Climbs (depth + 1) (.up :: steps) ↔ Climbs depth steps := by
  constructor
  · rintro ⟨first, hfst, h⟩
    rcases prefix_cons_iff.mp hfst with rfl | ⟨rest, rfl, hrest⟩
    · exact absurd h (Nat.not_lt_zero _)
    · refine ⟨rest, hrest, ?_⟩
      simp only [ups, downs, countP_cons] at h ⊢
      simp at h
      omega
  · rintro ⟨rest, hrest, h⟩
    refine ⟨.up :: rest, cons_prefix_cons.mpr ⟨rfl, hrest⟩, ?_⟩
    simp only [ups, downs, countP_cons] at h ⊢
    simp
    omega

/-- A walk fails exactly where it climbs above the root. -/
theorem walk_none (position : List α) (steps : List (Step α)) :
    walk position steps = none ↔ Climbs position.length steps := by
  induction steps generalizing position with
  | nil => simp [walk, not_climbs_nil]
  | cons step steps ih =>
    cases step with
    | down name => rw [walk, ih, climbs_down, length_append, length_singleton]
    | up =>
      rcases eq_nil_or_concat' position with rfl | ⟨before, name, rfl⟩
      · simp [walk, climbs_root]
      · rw [walk, if_neg (by simp), dropLast_concat, ih, length_append,
          length_singleton, climbs_up]

/-! ## From one position to another -/

section Route

variable [DecidableEq α]

/-- How many names the positions share from the root on. -/
def common (source target : List α) : Nat :=
  ((source.zip target).takeWhile fun names => names.1 = names.2).length

def route (source target : List α) : List (Step α) :=
  List.replicate (source.length - common source target) .up ++
    (target.drop (common source target)).map .down

theorem take_common (source target : List α) :
    source.take (common source target) = target.take (common source target) ∧
      common source target ≤ source.length := by
  induction source generalizing target with
  | nil => simp [common]
  | cons name source ih =>
    cases target with
    | nil => simp [common]
    | cons other target =>
      by_cases hname : name = other
      · obtain ⟨htake, hle⟩ := ih target
        simpa [common, hname] using ⟨htake, hle⟩
      · simp [common, hname]

theorem walk_route (source target : List α) : walk source (route source target) = some target := by
  obtain ⟨htake, hle⟩ := take_common source target
  generalize hn : common source target = n at htake hle
  have hback : walk source (List.replicate (source.length - n) .up ++ (target.drop n).map .down) =
      walk (source.take n) ((target.drop n).map .down) := by
    have := walk_up (source.take n) (source.drop n) ((target.drop n).map .down)
    rwa [take_append_drop, length_drop] at this
  rw [route, hn, hback, walk_down, htake, take_append_drop]

end Route

/-! ## Settling -/

/-- Up a number of times, then down. -/
def form (height : Nat) (names : List α) : List (Step α) :=
  List.replicate height .up ++ names.map .down

def settle : List (Step α) → List (Step α) → List (Step α)
  | settled, [] => settled
  | settled, .down name :: steps => settle (settled ++ [.down name]) steps
  | settled, .up :: steps =>
    match settled.getLast? with
    | some (.down _) => settle settled.dropLast steps
    | _ => settle (settled ++ [.up]) steps

@[simp] theorem form_down (height : Nat) (names : List α) (name : α) :
    form height names ++ [.down name] = form height (names ++ [name]) := by
  simp [form]

@[simp] theorem form_up (height : Nat) : form height ([] : List α) ++ [.up] = form (height + 1) [] := by
  simp [form, replicate_succ']

theorem settle_up_root (height : Nat) (steps : List (Step α)) :
    settle (form height []) (.up :: steps) = settle (form (height + 1) []) steps := by
  rw [settle, form_up]
  split
  · rename_i name h
    have hmem := mem_of_getLast? h
    simp [form] at hmem
  · rfl

theorem settle_up_back (height : Nat) (names : List α) (name : α) (steps : List (Step α)) :
    settle (form height (names ++ [name])) (.up :: steps) = settle (form height names) steps := by
  rw [settle, ← form_down, getLast?_concat]
  simp only [dropLast_concat]

theorem settle_form (height : Nat) (names : List α) (steps : List (Step α)) :
    ∃ height' names', settle (form height names) steps = form height' names' ∧
      ∀ name ∈ names', name ∈ names ∨ .down name ∈ steps := by
  induction steps generalizing height names with
  | nil => exact ⟨height, names, rfl, fun name hname => .inl hname⟩
  | cons step steps ih =>
    cases step with
    | down name =>
      obtain ⟨height', names', heq, hmem⟩ := ih height (names ++ [name])
      refine ⟨height', names', by rw [settle, form_down, heq], fun other hne => ?_⟩
      rcases hmem other hne with hnms | hsteps
      · rcases mem_append.mp hnms with hnms | hlast
        · exact .inl hnms
        · rw [mem_singleton.mp hlast]
          exact .inr mem_cons_self
      · exact .inr (mem_cons_of_mem _ hsteps)
    | up =>
      rcases eq_nil_or_concat' names with rfl | ⟨before, name, rfl⟩
      · obtain ⟨height', names', heq, hmem⟩ := ih (height + 1) []
        exact ⟨height', names', by rw [settle_up_root, heq],
          fun other hne => (hmem other hne).imp id (mem_cons_of_mem _)⟩
      · obtain ⟨height', names', heq, hmem⟩ := ih height before
        exact ⟨height', names', by rw [settle_up_back, heq],
          fun other hne => (hmem other hne).imp (mem_append_left _) (mem_cons_of_mem _)⟩

/-- Behind steps down, the names are appended. -/
theorem settle_down (height : Nat) (names names' : List α) :
    settle (form height names) (names'.map .down) = form height (names ++ names') := by
  induction names' generalizing names with
  | nil => simp [settle]
  | cons name names' ih => simp [settle, ih]

theorem settle_ups (height height' : Nat) (steps : List (Step α)) :
    settle (form height' []) (List.replicate height .up ++ steps) =
      settle (form (height' + height) []) steps := by
  induction height generalizing height' with
  | zero => simp
  | succ height ih =>
    rw [replicate_succ, cons_append, settle_up_root, ih]
    congr 2
    omega

/-- What is settled stays. -/
theorem settle_self (height : Nat) (names : List α) :
    settle [] (form height names) = form height names := by
  have := settle_ups height 0 (names.map .down)
  rw [Nat.zero_add, settle_down, nil_append] at this
  exact this

/-- Settling a walk that stays below the root gives the way down to where it leads. -/
theorem settle_walk {position reached : List α}
    (h : walk position steps = some reached) :
    settle (position.map .down) steps = reached.map .down := by
  induction steps generalizing position with
  | nil =>
    simp only [walk, Option.some.injEq] at h
    simp [settle, h]
  | cons step steps ih =>
    cases step with
    | down name =>
      have := ih h
      rwa [map_append] at this
    | up =>
      rcases eq_nil_or_concat' position with rfl | ⟨before, name, rfl⟩
      · simp [walk] at h
      · rw [walk, if_neg (by simp), dropLast_concat] at h
        have := ih h
        have hback := settle_up_back 0 before name steps
        simp only [form, replicate_zero, nil_append] at hback
        rw [hback, this]

end Lib.Route
