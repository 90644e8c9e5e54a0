import Kagari.Hir.TypeId

/-!
# Traversals of HIR types

- `containsUnknown`, `isUnresolved`: worklist searches, each with its own case analysis
- `substituteOnce`: rebuilds a type, with the values that a closure inserts copied as they stand
- `diagnoseUnknowns`: seals the holes of a type

`substituteOnce` is the recursive `substitute` (`substituteOnce_eq`). Its closure is a function of the
type it is asked for.
-/

namespace Kagari.Hir.TypeId

open Lib Branching List

/-! ## Searches -/

/-- Unknown inference holes, which still need a diagnostic. -/
def isHole : TypeId → Bool
  | .inference _ | .unknown => true
  | _ => false

/-- What `contains_unknown` pushes, the last first. -/
def unknownNext : TypeId → List TypeId
  | .reference target _ => [target]
  | .tuple items => items.reverse
  | .nativeObject nominal => nominal.children.reverse
  | .struct nominal => nominal.children.reverse
  | .enum nominal => nominal.children.reverse
  | .trait nominal => nominal.children.reverse
  | .array element => [element]
  | .set element _ => [element]
  | .iter element => [element]
  | .range element _ => [element]
  | .map key value _ => [value, key]
  | .function params result => result :: params.reverse
  | _ => []

/-- What `is_unresolved` pushes, the last first. -/
def unresolvedNext : TypeId → List TypeId
  | .nativeObject nominal => nominal.children.reverse
  | .struct nominal => nominal.children.reverse
  | .enum nominal => nominal.children.reverse
  | .trait nominal => nominal.children.reverse
  | .reference target _ => [target]
  | .tuple items => items.reverse
  | .array element => [element]
  | .set element _ => [element]
  | .iter element => [element]
  | .range element _ => [element]
  | .map key value _ => [value, key]
  | .function params result => result :: params.reverse
  | .projection arguments receiver interface _ =>
    (arguments ++ receiver :: interface.children).reverse
  | .inference _ | .unknown | .error | .builtin _ | .host _ | .generic _ | .selfType _ => []

variable (ty : TypeId) (replacement : TypeId → Option TypeId)

theorem unresolvedNext_perm : (unresolvedNext ty).Perm ty.children := by
  cases ty with
  | function params result =>
    simpa [unresolvedNext, children] using (reverse_perm (params ++ [result]))
  | map key value access => exact List.Perm.swap _ _ _
  | reference | array | set | iter | range => exact List.Perm.refl _
  | tuple items => exact reverse_perm _
  | nativeObject nominal | struct nominal | enum nominal | trait nominal => exact reverse_perm _
  | projection arguments receiver interface member => exact reverse_perm _
  | inference | unknown | error | builtin | host | generic | selfType => exact List.Perm.refl _

/-- The types below a type that is no projection. -/
def outside : TypeId → List TypeId
  | .projection _ _ _ _ => []
  | ty => ty.children

theorem unknownNext_perm : (unknownNext ty).Perm (outside ty) := by
  have h := unresolvedNext_perm ty
  cases ty with
  | projection arguments receiver interface member => exact List.Perm.refl _
  | _ => exact h

theorem outside_subperm : (outside ty).Subperm ty.children := by
  cases ty with
  | projection arguments receiver interface member => exact nil_subperm
  | _ => exact List.Subperm.refl _

def containsUnknown (ty : TypeId) : Bool :=
  search unknownNext (fun ty => (unknownNext_perm ty).subperm.trans (outside_subperm ty)) isHole [ty]

/-- Recovery types: the holes, and errors. -/
def isRecovery : TypeId → Bool
  | .inference _ | .unknown | .error => true
  | _ => false

def isUnresolved (ty : TypeId) : Bool :=
  search unresolvedNext (fun ty => (unresolvedNext_perm ty).subperm) isRecovery [ty]

/-- A hole that no projection hides. -/
def Exposed (ty : TypeId) : Prop := Reaches outside (fun u => isHole u = true) ty

/-- A hole, anywhere in the type. -/
def HasHole (ty : TypeId) : Prop := Occurs (fun u => isHole u = true) ty

theorem containsUnknown_iff : ty.containsUnknown = true ↔ Exposed ty := by
  rw [containsUnknown, Branching.search_iff]
  simp only [mem_singleton, exists_eq_left]
  exact reaches_congr fun u k => (unknownNext_perm u).mem_iff

theorem isUnresolved_iff :
    ty.isUnresolved = true ↔ Occurs (fun u => isRecovery u = true) ty := by
  rw [isUnresolved, Branching.search_iff]
  simp only [mem_singleton, exists_eq_left]
  exact reaches_congr fun u k => (unresolvedNext_perm u).mem_iff

theorem Exposed.hasHole {ty : TypeId} (h : Exposed ty) : HasHole ty := h.occurs outside_subperm

/-! ## Substitution -/

/-- The type with every child still unknown. -/
def vacant : TypeId → TypeId
  | .reference _ access => .reference .unknown access
  | .nativeObject nominal => .nativeObject (nominal.mapArguments fun _ => .unknown)
  | .struct nominal => .struct (nominal.mapArguments fun _ => .unknown)
  | .enum nominal => .enum (nominal.mapArguments fun _ => .unknown)
  | .trait nominal => .trait (nominal.mapArguments fun _ => .unknown)
  | .tuple items => .tuple (List.replicate items.length .unknown)
  | .iter _ => .iter .unknown
  | .range _ kind => .range .unknown kind
  | .array _ => .array .unknown
  | .set _ access => .set .unknown access
  | .map _ _ access => .map .unknown .unknown access
  | .function params _ => .function (List.replicate params.length .unknown) .unknown
  | .projection arguments _ interface member =>
    .projection (List.replicate arguments.length .unknown) .unknown
      (interface.mapArguments fun _ => .unknown) member
  | source => source

theorem vacant_eq : vacant ty = ty.withChildren (ty.children.map fun _ => .unknown) := by
  rw [← mapChildren_eq]
  cases ty <;> simp [vacant, mapChildren, map_const']

/-- The bound types of a nominal type are popped from the last on, its arguments before them. -/
def nominalSlots (nominal : NominalType) : List (TypeId × Nat) :=
  nominal.children.zipIdx.take nominal.arguments.length ++
    (nominal.children.zipIdx.drop nominal.arguments.length).reverse

/-- The children of a type with their positions, in the order in which they are popped. -/
def slots : TypeId → List (TypeId × Nat)
  | .nativeObject nominal => nominalSlots nominal
  | .struct nominal => nominalSlots nominal
  | .enum nominal => nominalSlots nominal
  | .trait nominal => nominalSlots nominal
  | .projection arguments receiver interface member =>
    (children (.projection arguments receiver interface member)).zipIdx.reverse
  | ty => ty.children.zipIdx

theorem slots_perm : (slots ty).Perm ty.children.zipIdx := by
  have hnom : ∀ nominal : NominalType, (nominalSlots nominal).Perm nominal.children.zipIdx := by
    intro nominal
    have := (reverse_perm (nominal.children.zipIdx.drop nominal.arguments.length)).append_left
      (nominal.children.zipIdx.take nominal.arguments.length)
    rwa [take_append_drop] at this
  cases ty with
  | nativeObject nominal | struct nominal | enum nominal | trait nominal => exact hnom nominal
  | projection arguments receiver interface member => exact reverse_perm _
  | _ => exact List.Perm.refl _

theorem sum_slots : ((slots ty).map fun slot => weight slot.1).sum < weight ty := by
  have hmap : (slots ty).map (fun slot => weight slot.1) = ((slots ty).map Prod.fst).map weight := by
    rw [map_map]
    rfl
  have hperm : ((slots ty).map Prod.fst).Perm ty.children := by
    have := (slots_perm ty).map Prod.fst
    rwa [zipIdx_map_fst] at this
  rw [hmap, (hperm.map weight).sum_eq]
  exact weight_children ty

/-- A source, the place it is written to, and whether its binders are still substituted. -/
abbrev Pending := TypeId × List Nat × Bool

/-- How much of the pending sources is substituted, and how much copied. -/
noncomputable def load (substituted : Bool) (pending : List Pending) : Nat :=
  (pending.map fun item => if item.2.2 = substituted then weight item.1 else 0).sum

theorem load_slots (target : List Nat) (substituted : Bool) (pending : List Pending) :
    load substituted ((slots ty).map (fun slot => (slot.1, target ++ [slot.2], substituted)) ++ pending) <
      weight ty + load substituted pending := by
  have := sum_slots ty
  simp only [load, map_append, map_map, Function.comp_def, if_true, sum_append]
  omega

theorem load_other (target : List Nat) (substituted : Bool) (pending : List Pending) :
    load (!substituted)
        ((slots ty).map (fun slot => (slot.1, target ++ [slot.2], substituted)) ++ pending) =
      load (!substituted) pending := by
  simp [load, Function.comp_def]

/-- What is inserted for a source: nothing, where it is inserted itself. -/
def inserts (replacement : TypeId → Option TypeId) (substituted : Bool) (source : TypeId) :
    Option TypeId :=
  if substituted then replacement source else none

/-- The loop of `substitute_once`: an inserted type is copied in place of its source. -/
def substituteLoop (replacement : TypeId → Option TypeId) (result : TypeId) :
    List Pending → TypeId
  | [] => result
  | (source, target, substituted) :: pending =>
    match _h : inserts replacement substituted source with
    | some inserted => substituteLoop replacement result ((inserted, target, false) :: pending)
    | none =>
      substituteLoop replacement (put target (vacant source) result)
        ((slots source).map (fun slot => (slot.1, target ++ [slot.2], substituted)) ++ pending)
termination_by pending => (load true pending, load false pending)
decreasing_by
  · cases substituted with
    | false => cases _h
    | true =>
      have hpos := weight_children source
      apply Prod.Lex.left
      simp only [load, List.map_cons, List.sum_cons, Bool.false_eq_true, if_true, if_false]
      omega
  · have hload := load_slots source target substituted pending
    cases substituted with
    | true =>
      apply Prod.Lex.left
      simpa [load] using hload
    | false =>
      have hother := load_other source target false pending
      have hsame : load true ((source, target, false) :: pending) = load true pending := by
        simp [load]
      rw [Bool.not_false] at hother
      rw [hsame, hother]
      apply Prod.Lex.right
      simpa [load] using hload

/-- What becomes of a pending source. -/
def built (replacement : TypeId → Option TypeId) (substituted : Bool) (source : TypeId) : TypeId :=
  if substituted then substitute replacement source else source

/-- A source that is not replaced becomes itself over what becomes of its children. -/
theorem built_children {replacement : TypeId → Option TypeId} {substituted : Bool} {source : TypeId}
    (h : inserts replacement substituted source = none) :
    built replacement substituted source =
      source.withChildren (source.children.map (built replacement substituted)) := by
  cases substituted with
  | true =>
    have hbuilt : built replacement true = substitute replacement := by
      funext source
      rfl
    rw [hbuilt]
    exact substitute_none h
  | false =>
    have hbuilt : built replacement false = id := by
      funext source
      rfl
    rw [hbuilt, map_id, source.withChildren_children]
    rfl

/-- The loop writes what becomes of each pending source to its place. -/
theorem substituteLoop_eq (result : TypeId)
    (pending : List Pending) :
    substituteLoop replacement result pending = pending.foldl
      (fun root item => put item.2.1 (built replacement item.2.2 item.1) root) result := by
  fun_induction substituteLoop with
  | case1 result => rfl
  | case2 result source target substituted pending inserted h ih =>
    cases substituted with
    | false => cases h
    | true =>
      have hbuilt : built replacement true source = built replacement false inserted :=
        substitute_some h
      rw [ih, foldl_cons, foldl_cons, hbuilt]
  | case3 result source target substituted pending h ih =>
    have hlen : (source.children.map (built replacement substituted)).length =
        (vacant source).children.length := by
      rw [vacant_eq, children_withChildren source _ (by simp), length_map, length_map]
    have hplcs : ((slots source).map fun slot => (built replacement substituted slot.1, slot.2)).Perm
        (source.children.map (built replacement substituted)).zipIdx := by
      rw [zipIdx_map]
      exact (slots_perm source).map _
    have hfill := @fill TypeId _ target (vacant source) result _ _ hplcs hlen
    have hvac : (vacant source).withChildren (source.children.map (built replacement substituted)) =
        built replacement substituted source := by
      rw [vacant_eq, withChildren_withChildren source _ _ (by simp), built_children h]
    rw [foldl_map] at hfill
    rw [ih, foldl_append, foldl_map, foldl_cons, ← hvac]
    exact congrArg (fun root => pending.foldl
      (fun root item => put item.2.1 (built replacement item.2.2 item.1) root) root) hfill

def substituteOnce (replacement : TypeId → Option TypeId) (ty : TypeId) : TypeId :=
  substituteLoop replacement .unknown [(ty, [], true)]

/-- `substitute_once` replaces the outermost types that the closure replaces, and nothing inside a
replacement. -/
theorem substituteOnce_eq (ty : TypeId) :
    substituteOnce replacement ty = substitute replacement ty :=
  substituteLoop_eq replacement .unknown [(ty, [], true)]

/-- A type that is not replaced is mapped over its children. -/
theorem substituteOnce_mapChildren (ty : TypeId) :
    substituteOnce replacement ty = match replacement ty with
      | some inserted => inserted
      | none => ty.mapChildren (substituteOnce replacement) := by
  have hloop : substituteOnce replacement = substitute replacement := by
    funext ty
    exact substituteOnce_eq replacement ty
  rw [hloop]
  split
  · rename_i inserted h
    exact substitute_some h
  · rename_i h
    rw [mapChildren_eq]
    exact substitute_none h

/-! ## Holes -/

/-- A hole is sealed by an error. -/
def sealHole (ty : TypeId) : Option TypeId := if isHole ty then some .error else none

def diagnoseUnknowns (ty : TypeId) : TypeId := substituteOnce sealHole ty

theorem isHole_withChildren {ty : TypeId} {types : List TypeId} :
    isHole (ty.withChildren types) = isHole ty := by
  cases ty <;> rfl

theorem not_hasHole_error : ¬ HasHole .error := by
  rw [HasHole, occurs_iff]
  rintro (h | ⟨k, hk, -⟩)
  · cases h
  · cases hk

/-- Nothing unknown is left, at any depth. -/
theorem not_hasHole_diagnoseUnknowns : ¬ HasHole ty.diagnoseUnknowns := by
  rw [diagnoseUnknowns, substituteOnce_eq]
  apply not_occurs_substitute
  · intro u hu
    simp [sealHole, hu]
  · intro u inserted h
    unfold sealHole at h
    split at h
    · simp only [Option.some.injEq] at h
      rw [← h]
      exact not_hasHole_error
    · cases h
  · intro u types _ hu
    exact isHole_withChildren.symm.trans hu

theorem diagnoseUnknowns_ne_iff : ty.diagnoseUnknowns ≠ ty ↔ HasHole ty := by
  constructor
  · intro hne
    by_contra hnone
    refine hne ?_
    rw [diagnoseUnknowns, substituteOnce_eq]
    apply substitute_self
    intro hocc
    refine hnone (hocc.mono fun u hu => ?_)
    by_contra hu'
    exact hu (if_neg hu')
  · intro hhole heq
    have := not_hasHole_diagnoseUnknowns ty
    rw [heq] at this
    exact this hhole

/-! ## Agreement -/

/-- What the traversals promise of a type. -/
structure TraversalsAgree (ty : TypeId) : Prop where
  /-- `contains_unknown` holds exactly when `diagnose_unknowns` changes the type. -/
  changed : ty.containsUnknown = true ↔ ty.diagnoseUnknowns ≠ ty
  /-- A diagnosed type has nothing unknown in it. -/
  diagnosed : ¬ HasHole ty.diagnoseUnknowns
  /-- Each outermost occurrence is replaced once; what is inserted is not looked into. -/
  substituted : ∀ replacement, substituteOnce replacement ty = substitute replacement ty
  /-- Where nothing is replaced, nothing changes. -/
  untouched : ∀ replacement, ¬ Occurs (fun u => replacement u ≠ none) ty →
    substituteOnce replacement ty = ty

/-- The traversals agree on a type exactly when a hole of it, if there is one, also stands outside
every projection: `contains_unknown` does not look into projections, and `diagnose_unknowns` does. -/
theorem traversalsAgree_iff (ty : TypeId) : TraversalsAgree ty ↔ (HasHole ty → Exposed ty) := by
  constructor
  · intro h hhole
    exact (containsUnknown_iff ty).mp (h.changed.mpr ((diagnoseUnknowns_ne_iff ty).mpr hhole))
  · intro h
    refine ⟨?_, not_hasHole_diagnoseUnknowns ty, fun replacement => substituteOnce_eq replacement ty,
      fun replacement hnone => ?_⟩
    · rw [containsUnknown_iff, diagnoseUnknowns_ne_iff]
      exact ⟨Exposed.hasHole, h⟩
    · rw [substituteOnce_eq, substitute_self hnone]

/-- An associated type of a receiver that is not inferred yet. -/
def pendingItem : TypeId := .projection [] (.inference 0) ⟨⟨0, 0⟩, [], []⟩ ⟨0, 1⟩

/-- Its hole is sealed, but never reported as unknown. -/
theorem traversals_disagree_pendingItem :
    pendingItem.containsUnknown = false ∧
      pendingItem.diagnoseUnknowns = .projection [] .error ⟨⟨0, 0⟩, [], []⟩ ⟨0, 1⟩ ∧
      ¬ TraversalsAgree pendingItem := by
  have hhidden : ¬ Exposed pendingItem := by
    rw [Exposed, reaches_iff]
    rintro (h | ⟨k, hk, -⟩)
    · cases h
    · cases hk
  have hcontains : pendingItem.containsUnknown = false := by
    rw [← Bool.not_eq_true, containsUnknown_iff]
    exact hhidden
  have hdiag : pendingItem.diagnoseUnknowns = .projection [] .error ⟨⟨0, 0⟩, [], []⟩ ⟨0, 1⟩ := by
    have hrecv : substituteOnce sealHole (.inference 0) = .error :=
      substituteOnce_mapChildren sealHole (.inference 0)
    have hitem : substituteOnce sealHole pendingItem =
        .projection [] (substituteOnce sealHole (.inference 0)) ⟨⟨0, 0⟩, [], []⟩ ⟨0, 1⟩ :=
      substituteOnce_mapChildren sealHole pendingItem
    rw [diagnoseUnknowns, hitem, hrecv]
  refine ⟨hcontains, hdiag, fun h => ?_⟩
  have hchgd := h.changed
  rw [hcontains, hdiag] at hchgd
  simp [pendingItem] at hchgd

end Kagari.Hir.TypeId
