import Kagari.Lib.DepthFirst
import Mathlib.Data.List.AList

/-!
# The graph of packages

`validateEdges` looks for a cycle among the selections of a workspace, `ResolvedGraph.closure` collects what
one of them needs. The entries of a map stand in the order of its keys. A version is any type with equality.

Both run with fuel that the size of the graph gives, and never run out of it (`packageGraph_exact`).
-/

namespace Kagari.Package

open Lib Relation List

structure PackageFamily where
  namespace_ : String
  directory : String
  name : String
deriving DecidableEq

inductive SourceRevision where
  | local
  | host (revision : String)
deriving DecidableEq

/-- An exact graph selection. -/
structure PackageSelection (V : Type) where
  family : PackageFamily
  version : V
  revision : SourceRevision
deriving DecidableEq

structure PackageError where
  origin : String
  message : String
deriving DecidableEq

variable {V : Type}

/-- A package whose alias edges name exact selections. -/
structure ResolvedPackage (V : Type) where
  selection : PackageSelection V
  dependencies : AList fun _ : String => PackageSelection V

def ResolvedPackage.targets (package : ResolvedPackage V) : List (PackageSelection V) :=
  package.dependencies.entries.map (·.2)

def arrow (names : List String) : String := " -> ".intercalate names

/-- The edges out of each selection. -/
abbrev Edges (V : Type) := AList fun _ : PackageSelection V => List (PackageSelection V)

/-- Every package of a graph is found under its own selection. -/
structure ResolvedGraph (V : Type) [DecidableEq V] where
  packages : AList fun _ : PackageSelection V => ResolvedPackage V
  keyed : ∀ selection package, packages.lookup selection = some package → package.selection = selection

variable [DecidableEq V]

def edgeError : DepthFirst.Refusal (PackageSelection V) → PackageError
  | .cycle trail selection =>
    ⟨selection.family.name, "package dependency cycle: " ++ arrow ((trail ++ [selection]).map (·.family.name))⟩
  | .missing selection => ⟨selection.family.name, "missing graph edge target"⟩

/-- Enough turns for one root. -/
def Edges.fuel (edges : Edges V) : Nat :=
  1 + ∑ selection ∈ edges.keys.toFinset, (1 + ((edges.lookup selection).getD []).length)

def validateEdges (edges : Edges V) : Option (Except PackageError Unit) :=
  (DepthFirst.check edges.lookup edges.fuel edges.keys ∅).map (·.mapError edgeError)

/-- The worklist of `closure`: each pending selection comes with the chain of dependencies to it. -/
structure Closure (V : Type) [DecidableEq V] where
  seen : Finset (PackageSelection V)
  families : PackageFamily → Option (PackageSelection V × List String)
  pending : List (PackageSelection V × List String)

namespace ResolvedGraph

/-- The edge of an alias, as an error names it; `describe` writes the version and the revision. -/
def step (describe : V → SourceRevision → String) (alias_ : String) (dependency : PackageSelection V) : String :=
  alias_ ++ " (" ++ describe dependency.version dependency.revision ++ ")"

/-- One turn, with the top of the stack. -/
def turn (describe : V → SourceRevision → String) (graph : ResolvedGraph V) (root : PackageSelection V)
    (c : Closure V) (selection : PackageSelection V) (chain : List String)
    (pending : List (PackageSelection V × List String)) : Except PackageError (Closure V) :=
  if selection ∈ c.seen then .ok { c with pending }
  else match graph.packages.lookup selection with
    | none => .error ⟨selection.family.name, "missing resolved package"⟩
    | some package =>
      let next : Closure V := {
        seen := insert selection c.seen
        families := Function.update c.families package.selection.family (some (selection, chain))
        pending := package.dependencies.entries.map (fun e => (e.2, chain ++ [step describe e.1 e.2])) ++ pending }
      match c.families package.selection.family with
      | none => .ok next
      | some (previous, previousChain) =>
        if previous = selection then .ok next
        else .error ⟨root.family.name,
          "conflicting selections of " ++ selection.family.name ++ ": " ++ arrow previousChain ++ " versus " ++
            arrow chain⟩

def closureLoop (describe : V → SourceRevision → String) (graph : ResolvedGraph V) (root : PackageSelection V) :
    Nat → Closure V → Option (Except PackageError (Finset (PackageSelection V)))
  | fuel, c =>
    match c.pending, fuel with
    | [], _ => some (.ok c.seen)
    | _ :: _, 0 => none
    | (selection, chain) :: pending, fuel + 1 =>
      match graph.turn describe root c selection chain pending with
      | .ok c => closureLoop describe graph root fuel c
      | .error e => some (.error e)

/-- How many dependencies the packages that were not seen can still add. -/
def unseen (graph : ResolvedGraph V) (seen : Finset (PackageSelection V)) : Nat :=
  ∑ selection ∈ graph.packages.keys.toFinset \ seen,
    (((graph.packages.lookup selection).map (·.targets)).getD []).length

/-- The selections that a package needs; `none` when the turns run out. -/
def closure (describe : V → SourceRevision → String) (graph : ResolvedGraph V) (root : PackageSelection V) :
    Option (Except PackageError (Finset (PackageSelection V))) :=
  graph.closureLoop describe root (1 + graph.unseen ∅) ⟨∅, fun _ => none, [(root, [root.family.name])]⟩

def edges (graph : ResolvedGraph V) : Edges V :=
  ⟨graph.packages.entries.map (.map id fun _ => ResolvedPackage.targets), graph.packages.nodupKeys.map₂ _⟩

/-- The cycle check before a graph is accepted. -/
def validateCycles (graph : ResolvedGraph V) : Option (Except PackageError Unit) := validateEdges graph.edges

end ResolvedGraph

/-! ## The edges of a graph -/

theorem validateEdges_iff (edges : Edges V) : ∃ result, validateEdges edges = some result ∧ (result = .ok () ↔
    (∀ a b, DepthFirst.Leads edges.lookup a b → b ∈ edges) ∧ Acyclic (DepthFirst.Leads edges.lookup)) := by
  have hkeys : ∀ a, (edges.lookup a).isSome ↔ a ∈ edges.keys := fun a => AList.lookup_isSome
  obtain ⟨result, hrun, hiff⟩ := DepthFirst.check_iff hkeys (Nat.le_refl edges.fuel)
  refine ⟨result.mapError edgeError, by rw [validateEdges, hrun]; rfl, ?_⟩
  cases result with
  | ok => exact iff_of_true rfl (hiff.mp rfl)
  | error e => exact iff_of_false nofun fun h => absurd (hiff.mpr h) nofun

namespace ResolvedGraph

variable {graph : ResolvedGraph V} {root : PackageSelection V} (describe : V → SourceRevision → String)

/-- One selection needs another directly. -/
def Depends (graph : ResolvedGraph V) (a b : PackageSelection V) : Prop :=
  ∃ package, graph.packages.lookup a = some package ∧ b ∈ package.targets

theorem lookup_edges (graph : ResolvedGraph V) (a : PackageSelection V) :
    graph.edges.lookup a = (graph.packages.lookup a).map (·.targets) :=
  dlookup_map₂ a

theorem leads_edges (graph : ResolvedGraph V) : DepthFirst.Leads graph.edges.lookup = graph.Depends := by
  funext a b
  apply propext
  unfold DepthFirst.Leads Depends
  simp [lookup_edges]

theorem validateCycles_iff (graph : ResolvedGraph V) : ∃ result, graph.validateCycles = some result ∧
    (result = .ok () ↔ (∀ a b, graph.Depends a b → b ∈ graph.packages) ∧ Acyclic graph.Depends) := by
  obtain ⟨result, hrun, hiff⟩ := validateEdges_iff graph.edges
  refine ⟨result, hrun, hiff.trans ?_⟩
  have hmem : ∀ b, b ∈ graph.edges ↔ b ∈ graph.packages := by
    intro b
    rw [← AList.lookup_isSome, ← AList.lookup_isSome, lookup_edges, Option.isSome_map]
  rw [leads_edges]
  simp only [hmem]

/-! ## What a package needs -/

/-- Between two turns: what was seen is in the graph, one of each family, and leads to what was seen or is
pending. -/
structure Closing (graph : ResolvedGraph V) (root : PackageSelection V) (c : Closure V) : Prop where
  first : root ∈ c.seen ∨ root ∈ c.pending.map (·.1)
  reached : ∀ a, a ∈ c.seen ∨ a ∈ c.pending.map (·.1) → ReflTransGen graph.Depends root a
  closed : ∀ a ∈ c.seen, ∀ b, graph.Depends a b → b ∈ c.seen ∨ b ∈ c.pending.map (·.1)
  present : ∀ a ∈ c.seen, a ∈ graph.packages
  families : ∀ a ∈ c.seen, ∃ chain, c.families a.family = some (a, chain)
  owned : ∀ family a chain, c.families family = some (a, chain) → a ∈ c.seen ∧ a.family = family

/-- What stands against a closure: a selection that the graph does not contain, or two of one family. -/
def Conflict (graph : ResolvedGraph V) (root : PackageSelection V) : Prop :=
  (∃ a, ReflTransGen graph.Depends root a ∧ a ∉ graph.packages) ∨
    ∃ a b, ReflTransGen graph.Depends root a ∧ ReflTransGen graph.Depends root b ∧ a.family = b.family ∧ a ≠ b

theorem closing_start (graph : ResolvedGraph V) (root : PackageSelection V) :
    Closing graph root ⟨∅, fun _ => none, [(root, [root.family.name])]⟩ := by
  refine ⟨.inr (mem_singleton_self root), ?_, nofun, nofun, nofun, nofun⟩
  rintro a (ha | ha)
  · exact absurd ha (Finset.notMem_empty a)
  · rw [mem_singleton.mp ha]

/-- With nothing pending, what was seen is what can be reached. -/
theorem Closing.finish {c : Closure V} (h : Closing graph root c) (hpend : c.pending = []) :
    (∀ a, a ∈ c.seen ↔ ReflTransGen graph.Depends root a) ∧ ¬ graph.Conflict root := by
  have hdone : ∀ {a}, a ∈ c.seen ∨ a ∈ c.pending.map (·.1) → a ∈ c.seen := by
    rintro a (ha | ha)
    · exact ha
    · rw [hpend] at ha
      exact absurd ha not_mem_nil
  have hall : ∀ a, ReflTransGen graph.Depends root a → a ∈ c.seen := by
    intro a ha
    induction ha with
    | refl => exact hdone h.first
    | tail _ hedge ih => exact hdone (h.closed _ ih _ hedge)
  refine ⟨fun a => ⟨fun ha => h.reached a (.inl ha), hall a⟩, ?_⟩
  rintro (⟨a, ha, hmiss⟩ | ⟨a, b, ha, hb, hfamily, hne⟩)
  · exact hmiss (h.present a (hall a ha))
  · obtain ⟨_, hfst⟩ := h.families a (hall a ha)
    obtain ⟨_, hsnd⟩ := h.families b (hall b hb)
    rw [hfamily, hsnd] at hfst
    exact hne (congrArg Prod.fst (Option.some.inj hfst)).symm

variable {c : Closure V} {selection : PackageSelection V} {chain : List String}
  {pending : List (PackageSelection V × List String)}

theorem Closing.skip (h : Closing graph root c) (hpend : c.pending = (selection, chain) :: pending)
    (hseen : selection ∈ c.seen) : Closing graph root { c with pending } := by
  have hmem : ∀ {a}, a ∈ c.seen ∨ a ∈ c.pending.map (·.1) → a ∈ c.seen ∨ a ∈ pending.map (·.1) := by
    rintro a (ha | ha)
    · exact .inl ha
    · rw [hpend, map_cons, mem_cons] at ha
      rcases ha with rfl | ha
      · exact .inl hseen
      · exact .inr ha
  refine ⟨hmem h.first, fun a ha => h.reached a (ha.imp_right fun ha => ?_),
    fun a ha b hb => hmem (h.closed a ha b hb), h.present, h.families, h.owned⟩
  rw [hpend]
  exact mem_cons_of_mem _ ha

theorem Closing.visit (h : Closing graph root c) (hpend : c.pending = (selection, chain) :: pending)
    (hseen : selection ∉ c.seen) {package : ResolvedPackage V}
    (hpkg : graph.packages.lookup selection = some package) (hfamily : c.families selection.family = none)
    {added : List (PackageSelection V × List String)} (hadded : added.map
      (·.1) = package.targets) : Closing graph root ⟨insert selection c.seen,
      Function.update c.families selection.family (some (selection, chain)), added ++ pending⟩ := by
  have hmem : ∀ {a}, a ∈ c.seen ∨ a ∈ c.pending.map (·.1) →
      a ∈ insert selection c.seen ∨ a ∈ (added ++ pending).map (·.1) := by
    rintro a (ha | ha)
    · exact .inl (Finset.mem_insert_of_mem ha)
    · rw [hpend, map_cons, mem_cons] at ha
      rcases ha with rfl | ha
      · exact .inl (Finset.mem_insert_self _ _)
      · rw [map_append]
        exact .inr (mem_append_right _ ha)
  have hrch : ReflTransGen graph.Depends root selection := by
    apply h.reached
    rw [hpend]
    exact .inr mem_cons_self
  refine ⟨hmem h.first, fun a ha => ?_, fun a ha b hb => ?_, fun a ha => ?_, fun a ha => ?_,
    fun family a found hfnd => ?_⟩
  · rw [Finset.mem_insert, map_append, mem_append, hadded] at ha
    rcases ha with (rfl | ha) | ha | ha
    · exact hrch
    · exact h.reached a (.inl ha)
    · exact hrch.tail ⟨package, hpkg, ha⟩
    · apply h.reached
      rw [hpend]
      exact .inr (mem_cons_of_mem _ ha)
  · rcases Finset.mem_insert.mp ha with rfl | ha
    · obtain ⟨found, hfnd, hb⟩ := hb
      cases hpkg.symm.trans hfnd
      rw [map_append, mem_append, hadded]
      exact .inr (.inl hb)
    · exact hmem (h.closed a ha b hb)
  · rcases Finset.mem_insert.mp ha with rfl | ha
    · exact AList.lookup_isSome.mp (by rw [hpkg]; rfl)
    · exact h.present a ha
  · rcases Finset.mem_insert.mp ha with rfl | ha
    · exact ⟨chain, Function.update_self _ _ _⟩
    · obtain ⟨found, hfnd⟩ := h.families a ha
      refine ⟨found, ?_⟩
      dsimp only
      rw [Function.update_of_ne ?_, hfnd]
      intro heq
      rw [heq, hfamily] at hfnd
      exact absurd hfnd nofun
  · dsimp only at hfnd
    by_cases heq : family = selection.family
    · rw [heq, Function.update_self] at hfnd
      obtain rfl := congrArg Prod.fst (Option.some.inj hfnd)
      exact ⟨Finset.mem_insert_self _ _, heq.symm⟩
    · rw [Function.update_of_ne heq] at hfnd
      obtain ⟨hmem, howned⟩ := h.owned family a found hfnd
      exact ⟨Finset.mem_insert_of_mem hmem, howned⟩

/-- What one turn does: it drops a selection, adds its dependencies, or meets a conflict. -/
theorem turn_cases (h : Closing graph root c) (hpend : c.pending = (selection, chain) :: pending) :
    (∃ next, graph.turn describe root c selection chain pending = .ok next ∧ Closing graph root next ∧
      next.pending.length + graph.unseen next.seen + 1 = c.pending.length + graph.unseen c.seen) ∨
      ∃ e, graph.turn describe root c selection chain pending = .error e ∧ graph.Conflict root := by
  have hrch : ReflTransGen graph.Depends root selection := by
    apply h.reached
    rw [hpend]
    exact .inr List.mem_cons_self
  unfold turn
  by_cases hseen : selection ∈ c.seen
  · rw [if_pos hseen]
    refine .inl ⟨_, rfl, h.skip hpend hseen, ?_⟩
    rw [hpend, List.length_cons]
    dsimp only
    omega
  rw [if_neg hseen]
  cases hpkg : graph.packages.lookup selection with
  | none => exact .inr ⟨_, rfl, .inl ⟨selection, hrch, AList.lookup_eq_none.mp hpkg⟩⟩
  | some package =>
    dsimp only
    rw [graph.keyed selection package hpkg]
    cases hfamily : c.families selection.family with
    | none =>
      refine .inl ⟨_, rfl, h.visit hpend hseen hpkg hfamily ?_, ?_⟩
      · rw [List.map_map]
        rfl
      · rw [hpend, List.length_append, List.length_map, List.length_cons]
        have hunseen : graph.unseen c.seen = package.targets.length + graph.unseen (insert selection c.seen) := by
          have hmem : selection ∈ graph.packages.keys.toFinset \ c.seen := by
            simp only [Finset.mem_sdiff, List.mem_toFinset, hseen, not_false_eq_true, and_true]
            exact AList.lookup_isSome.mp (by rw [hpkg]; rfl)
          unfold unseen
          rw [← Finset.add_sum_erase _ _ hmem, hpkg, Finset.sdiff_insert]
          rfl
        rw [hunseen, ResolvedPackage.targets, List.length_map]
        dsimp only
        omega
    | some found =>
      obtain ⟨previous, previousChain⟩ := found
      obtain ⟨hprev, howned⟩ := h.owned _ _ _ hfamily
      have hne : previous ≠ selection := fun heq => hseen (heq ▸ hprev)
      dsimp only
      rw [if_neg hne]
      exact .inr ⟨_, rfl, .inr ⟨previous, selection, h.reached _ (.inl hprev), hrch, howned, hne⟩⟩

theorem closureLoop_exact (fuel : Nat) : ∀ {c : Closure V}, Closing graph root c →
    c.pending.length + graph.unseen c.seen ≤ fuel →
    (∃ all, graph.closureLoop describe root fuel c = some (.ok all) ∧
      (∀ a, a ∈ all ↔ ReflTransGen graph.Depends root a) ∧ ¬ graph.Conflict root) ∨
      ∃ e, graph.closureLoop describe root fuel c = some (.error e) ∧ graph.Conflict root := by
  induction fuel with
  | zero =>
    intro c h hfuel
    have hnil : c.pending = [] := length_eq_zero_iff.mp (by omega)
    refine .inl ⟨c.seen, ?_, h.finish hnil⟩
    unfold closureLoop
    rw [hnil]
  | succ fuel ih =>
    intro c h hfuel
    unfold closureLoop
    cases hpend : c.pending with
    | nil => exact .inl ⟨c.seen, rfl, h.finish hpend⟩
    | cons top pending =>
      obtain ⟨selection, chain⟩ := top
      dsimp only
      rcases turn_cases describe h hpend with ⟨next, hturn, hnext, hless⟩ | ⟨e, hturn, hconf⟩
      · rw [hturn]
        exact ih hnext (by omega)
      · rw [hturn]
        exact .inr ⟨e, rfl, hconf⟩

theorem closure_exact (graph : ResolvedGraph V) (root : PackageSelection V) :
    ∃ result, graph.closure describe root = some result ∧
      (∀ all, result = .ok all → ∀ a, a ∈ all ↔ ReflTransGen graph.Depends root a) ∧
      ((∃ e, result = .error e) ↔ graph.Conflict root) := by
  rcases closureLoop_exact describe (1 + graph.unseen ∅) (closing_start graph root) (Nat.le_refl _) with
    ⟨all, hrun, hall, hclear⟩ | ⟨e, hrun, hconf⟩
  · refine ⟨_, hrun, ?_, iff_of_false nofun hclear⟩
    rintro _ heq
    cases heq
    exact hall
  · exact ⟨_, hrun, nofun, iff_of_true ⟨e, rfl⟩ hconf⟩

/-- In a graph without cycles or missing selections, a closure fails only over two selections of one family.
It holds the closures of all that it selects, and nothing selected needs the root. -/
theorem closure_layered (describe : V → SourceRevision → String) (graph : ResolvedGraph V)
    (haccepted : graph.validateCycles = some (.ok ())) (root : PackageSelection V) (hroot : root ∈ graph.packages) :
    ∃ result, graph.closure describe root = some result ∧
      ((∃ e, result = .error e) ↔ ∃ a b, ReflTransGen graph.Depends root a ∧ ReflTransGen graph.Depends root b ∧
        a.family = b.family ∧ a ≠ b) ∧
      ∀ all, result = .ok all → ∀ a ∈ all, ∃ part, graph.closure describe a = some (.ok part) ∧ part ⊆ all ∧
        (a ≠ root → root ∉ part) := by
  obtain ⟨checked, hrun, hiff⟩ := graph.validateCycles_iff
  obtain ⟨hpres, hacyc⟩ := hiff.mp (Option.some.inj (hrun.symm.trans haccepted))
  have hmem : ∀ a, ReflTransGen graph.Depends root a → a ∈ graph.packages := by
    intro a h
    cases h with
    | refl => exact hroot
    | tail _ hedge => exact hpres _ _ hedge
  obtain ⟨result, hclsr, hall, herr⟩ := graph.closure_exact describe root
  refine ⟨result, hclsr, herr.trans (or_iff_right fun ⟨a, ha, hmiss⟩ => hmiss (hmem a ha)), ?_⟩
  rintro all rfl a ha
  have hrch := (hall all rfl a).mp ha
  obtain ⟨result, hpart, hin, hfails⟩ := graph.closure_exact describe a
  cases result with
  | error e =>
    -- a conflict below a selection is a conflict below the root
    refine absurd (herr.mpr ?_) nofun
    rcases hfails.mp ⟨e, rfl⟩ with ⟨b, hb, hmiss⟩ | ⟨b, c, hb, hc, hconf⟩
    · exact .inl ⟨b, hrch.trans hb, hmiss⟩
    · exact .inr ⟨b, c, hrch.trans hb, hrch.trans hc, hconf⟩
  | ok part =>
    refine ⟨part, hpart, fun b hb => (hall all rfl b).mpr (hrch.trans ((hin part rfl b).mp hb)), fun hne hback => ?_⟩
    have hcyc := (hin part rfl root).mp hback
    rcases reflTransGen_iff_eq_or_transGen.mp hcyc with rfl | hcyc
    · exact hne rfl
    · exact hacyc _ (hcyc.trans_left hrch)

end ResolvedGraph

/-- The cycle check accepts exactly the acyclic graphs whose edges lead to selections; a closure is what the root
reaches, and fails only over a conflict. -/
theorem packageGraph_exact (describe : V → SourceRevision → String) :
    (∀ edges : Edges V, ∃ result, validateEdges edges = some result ∧ (result = .ok () ↔
      (∀ a b, DepthFirst.Leads edges.lookup a b → b ∈ edges) ∧ Acyclic (DepthFirst.Leads edges.lookup))) ∧
    ∀ (graph : ResolvedGraph V) (root : PackageSelection V), ∃ result, graph.closure describe root = some result ∧
      (∀ all, result = .ok all → ∀ a, a ∈ all ↔ ReflTransGen graph.Depends root a) ∧
      ((∃ e, result = .error e) ↔
        (∃ a, ReflTransGen graph.Depends root a ∧ a ∉ graph.packages) ∨
          ∃ a b, ReflTransGen graph.Depends root a ∧ ReflTransGen graph.Depends root b ∧
            a.family = b.family ∧ a ≠ b) :=
  ⟨validateEdges_iff, ResolvedGraph.closure_exact describe⟩

def selectionOf (name : String) : PackageSelection Nat := ⟨⟨"", name, name⟩, 1, .local⟩

/-- An application that needs one library. -/
def application : ResolvedGraph Nat where
  packages := ⟨[⟨selectionOf "app", selectionOf "app", AList.singleton "lib" (selectionOf "lib")⟩,
    ⟨selectionOf "lib", selectionOf "lib", ∅⟩], by simp [selectionOf]⟩
  keyed selection package h := by
    have hmem := AList.mem_lookup_iff.mp h
    rcases List.mem_pair.mp hmem with heq | heq <;> cases heq <;> rfl

theorem closure_layered_application : ∃ result,
    application.closure (fun _ _ => "") (selectionOf "app") = some result ∧
      ∀ all, result = .ok all → ∀ a ∈ all, ∃ part, application.closure (fun _ _ => "") a = some (.ok part) ∧
        part ⊆ all ∧ (a ≠ selectionOf "app" → selectionOf "app" ∉ part) := by
  have hacc : application.validateCycles = some (.ok ()) := by decide +kernel
  obtain ⟨result, hclsr, -, hall⟩ := ResolvedGraph.closure_layered (fun _ _ => "") application hacc
    (selectionOf "app") (by decide +kernel)
  exact ⟨result, hclsr, hall⟩

end Kagari.Package
