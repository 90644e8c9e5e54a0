import Kagari.Lib.Route
import Kagari.Package.Graph

/-!
# Portable paths

`kagari-package/src/path.rs`: `join` resolves a relative path below an input root, `relative` is the
way from one directory to another, and `locator` normalizes a way that may leave the root. A path is
the list of its characters.

A component is a step of a route (`step`); the loops of `join` and `locator` are `walk` and `settle`
over the steps of their components.
-/

namespace Kagari.Package

open Lib.Route

abbrev Path := List Char

def components (path : Path) : List Path := path.splitOn '/'

def slashed (parts : List Path) : Path := ['/'].intercalate parts

def dot : Path := ['.']

def dots : Path := ['.', '.']

/-- The separators and characters of other platforms. -/
def foreign (ch : Char) : Bool := ch == '\\' || ch == ':' || ch == '\x00'

def forbidden (path : Path) : Bool := path.head? == some '/' || path.any foreign

/-- The loop of `join`. -/
def joinParts (origin : String) : List Path → List Path → Except PackageError (List Path)
  | parts, [] => .ok parts
  | parts, part :: rest =>
    if part = [] ∨ part = dot then joinParts origin parts rest
    else if part = dots then
      if parts = [] then .error ⟨origin, "path escapes the input root"⟩
      else joinParts origin parts.dropLast rest
    else joinParts origin (parts ++ [part]) rest

def join (base path : Path) (origin : String) : Except PackageError Path :=
  if path.isEmpty || forbidden base || forbidden path then
    .error ⟨origin, "expected a portable relative path"⟩
  else do
    let parts ← joinParts origin [] (components base ++ components path)
    return slashed parts

def relative (source target : Path) : Path :=
  let source := (components source).filter (· ≠ [])
  let target := (components target).filter (· ≠ [])
  let common := ((source.zip target).takeWhile fun parts => parts.1 = parts.2).length
  slashed (List.replicate (source.length - common) dots ++ target.drop common)

/-- The loop of `locator`. -/
def locatorParts : List Path → List Path → List Path
  | parts, [] => parts
  | parts, part :: rest =>
    if part = [] ∨ part = dot then locatorParts parts rest
    else if part = dots ∧ parts.getLast?.any (· ≠ dots) then locatorParts parts.dropLast rest
    else locatorParts (parts ++ [part]) rest

def locator (path : Path) (origin : String) : Except PackageError Path :=
  if forbidden path then .error ⟨origin, "expected a portable package locator"⟩
  else .ok (slashed (locatorParts [] (components path)))

/-! ## Components as steps -/

/-- What a component does to the position. -/
def step (part : Path) : Option (Step Path) :=
  if part = [] ∨ part = dot then none
  else if part = dots then some .up
  else some (.down part)

def text : Step Path → Path
  | .up => dots
  | .down name => name

def steps (path : Path) : List (Step Path) := (components path).filterMap step

/-- The component of a normalized path: the name of a directory or a file. -/
structure IsName (part : Path) : Prop where
  nonempty : part ≠ []
  not_dot : part ≠ dot
  not_dots : part ≠ dots
  portable : ∀ ch ∈ part, ch ≠ '/' ∧ foreign ch = false

def AreNames (parts : List Path) : Prop := ∀ part ∈ parts, IsName part

variable {part : Path}

theorem step_skip (h : part = [] ∨ part = dot) : step part = none := by
  rw [step, if_pos h]

theorem step_dots : step dots = some .up := rfl

theorem step_name (hskip : ¬ (part = [] ∨ part = dot)) (hdots : part ≠ dots) :
    step part = some (.down part) := by
  rw [step, if_neg hskip, if_neg hdots]

theorem IsName.step {part : Path} (h : IsName part) : step part = some (.down part) :=
  step_name (not_or.mpr ⟨h.nonempty, h.not_dot⟩) h.not_dots

theorem step_down {part name : Path} (h : step part = some (.down name)) :
    part = name ∧ part ≠ [] ∧ part ≠ dot ∧ part ≠ dots := by
  unfold step at h
  split at h
  · cases h
  · split at h
    · cases h
    · simp_all

theorem joinParts_eq (origin : String) (parts pieces : List Path) :
    joinParts origin parts pieces = match walk parts (pieces.filterMap step) with
      | some reached => .ok reached
      | none => .error ⟨origin, "path escapes the input root"⟩ := by
  induction pieces generalizing parts with
  | nil => rfl
  | cons part rest ih =>
    simp only [joinParts, List.filterMap_cons, step]
    split
    · exact ih parts
    · split
      · simp only [walk]
        split
        · rfl
        · exact ih _
      · exact ih _

/-- The parts of a locator, as the steps they were written from. -/
theorem locatorParts_eq (settled : List (Step Path)) (pieces : List Path)
    (h : ∀ name, .down name ∈ settled → name ≠ dots) :
    locatorParts (settled.map text) pieces = (settle settled (pieces.filterMap step)).map text := by
  induction pieces generalizing settled with
  | nil => rfl
  | cons part rest ih =>
    rw [locatorParts]
    by_cases hskip : part = [] ∨ part = dot
    · rw [if_pos hskip, List.filterMap_cons_none (step_skip hskip), ih settled h]
    rw [if_neg hskip]
    by_cases hdots : part = dots
    · subst hdots
      rw [List.filterMap_cons_some step_dots]
      obtain rfl | ⟨before, last, rfl⟩ := List.eq_nil_or_concat' settled
      · exact ih [.up] (by simp)
      · have hbef := ih before fun name hname => h name (List.mem_append_left _ hname)
        cases last with
        | up =>
          have := ih (before ++ [.up] ++ [.up]) (by simpa using h)
          simpa [settle, text] using this
        | down name =>
          have hname : name ≠ dots := h name (by simp)
          simpa [settle, text, hname] using hbef
    · rw [if_neg (fun hback => hdots hback.1), List.filterMap_cons_some (step_name hskip hdots)]
      have := ih (settled ++ [.down part]) (by
        intro name hname
        rcases List.mem_append.mp hname with hname | hname
        · exact h name hname
        · simp only [List.mem_singleton, Step.down.injEq] at hname
          rwa [hname])
      rw [List.map_append] at this
      exact this

end Kagari.Package
