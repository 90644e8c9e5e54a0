import Kagari.Types.SubstitutionBudget

/-!
# Applied traits and their supertraits

`trait_closure` of `kagari-types/src/ty/inheritance.rs`. A declared supertrait goes through three passes,
one after the other: the outputs of the applied trait for its associated types, the receiver for `Self`, and
the arguments for the parameters.

`Ty.instantiate` puts all three in at once. The passes agree with it as long as no pass changes what an
earlier one has put in (`inherited_eq`).
-/

namespace Kagari

open Lib List

/-! ## The closure -/

instance : DecidableEq NominalTy := fun a b => decidable_of_iff _ (Ty.beqNominal_iff a b)

/-- What is read of a trait's contract; a parameter is its owner and position. -/
structure TraitDef where
  supertraits : List NominalTy
  genericParams : List (DefinitionId × Nat)

abbrev TraitLookup := DefinitionId → Option TraitDef

def maxTraits : Nat := 4096

def maxPath : Nat := 64

def maxEdges : Nat := 100000

/-- The arguments for the parameters. -/
def TraitDef.parameters (contract : TraitDef) (applied : NominalTy) : TypeSubstitution :=
  (contract.genericParams.zip applied.arguments).foldl
    (fun substitution (parameter, argument) => substitution.bind parameter.1 parameter.2 argument) .empty

/-- The receiver for the `Self` of the trait. -/
def receivers (applied : NominalTy) (receiver : Ty) : TypeSubstitution :=
  TypeSubstitution.empty.bindReceiver applied.declaration receiver

/-- One declared supertrait, of an applied trait. -/
def inherited (receiver : Ty) (cancel : CancellationToken) (contract : TraitDef) (applied parent : NominalTy) :
    Except TypeTransformError NominalTy := do
  let parent ← TypeSubstitution.empty.applyNominal parent cancel
  let parent ← resolveAssociatedOutputs (.trait parent) applied (.selfType applied.declaration) cancel
  let parent ← (receivers applied receiver).apply parent cancel
  let parent ← (contract.parameters applied).apply parent cancel
  match parent with
  | .trait parent => .ok parent
  | _ => .error .invalidContract

/-- An applied trait, and the declarations on the way to it. -/
abbrev Pending := NominalTy × List DefinitionId

/-- Push the supertraits, the last one first. -/
def pushSupertraits (receiver : Ty) (cancel : CancellationToken) (contract : TraitDef) (applied : NominalTy)
    (path : List DefinitionId) (pending : List Pending) : Except TypeTransformError (List Pending) :=
  contract.supertraits.reverse.foldlM (fun pending parent => do
    let parent ← inherited receiver cancel contract applied parent
    return (parent, path) :: pending) pending

section Loop

variable (receiver : Ty) (cancel : CancellationToken) (lookup : TraitLookup)

/-- The stack has its top first. Every turn takes one of the `remaining` edges. -/
def closureLoop : Nat → List Pending → List NominalTy → List NominalTy →
    Except TypeTransformError (List NominalTy)
  | _, [], _, result => .ok result
  | 0, _ :: _, _, _ => do
    checkCancel cancel
    .error .limitExceeded
  | remaining + 1, (applied, path) :: pending, seen, result => do
    checkCancel cancel
    if applied.declaration ∈ path ∨ path.length ≥ maxPath then .error .limitExceeded
    else if applied ∈ seen then closureLoop remaining pending seen result
    else if result.length ≥ maxTraits then .error .limitExceeded
    else
      match lookup applied.declaration with
      | none => .error .invalidContract
      | some contract =>
        if contract.genericParams.length ≠ applied.arguments.length then .error .invalidContract
        else if contract.supertraits.length > remaining ∨
            pending.length > remaining - contract.supertraits.length then .error .limitExceeded
        else do
          let pending ← pushSupertraits receiver cancel contract applied (path ++ [applied.declaration]) pending
          closureLoop remaining pending (applied :: seen) (result ++ [applied])

end Loop

def traitClosure (interface : NominalTy) (receiver : Ty) (cancel : CancellationToken) (lookup : TraitLookup) :
    Except TypeTransformError (List NominalTy) := do
  let root ← TypeSubstitution.empty.applyNominal interface cancel
  let receiver ← TypeSubstitution.empty.apply receiver cancel
  closureLoop receiver cancel lookup maxEdges [(root, [])] [] []

/-! ## All at once -/

variable {ty : Ty} {m : DefinitionId} {path : List DefinitionId}

section Instantiate

variable (applied : NominalTy)

/-- A projection of one of the applied trait's own associated types, by its resolved receiver. -/
def Owns (arguments : List Ty) (receiver : Ty) (interface : NominalTy) (member : DefinitionId) : Prop :=
  arguments = [] ∧ interface.associatedTypes.lookup member = none ∧
    interface.declaration = applied.declaration ∧ receiver = .selfType applied.declaration

instance (arguments : List Ty) (receiver : Ty) (interface : NominalTy) (member : DefinitionId) :
    Decidable (Owns applied arguments receiver interface member) :=
  inferInstanceAs (Decidable (_ ∧ _ ∧ _ ∧ _))

/-- What stands for an own associated type: its output, or the projection of `receiver` on the applied
trait where it has none. -/
def ownOutput (receiver : Ty) (member : DefinitionId) : Ty :=
  (applied.associatedTypes.lookup member).getD (.projection [] receiver applied member)

mutual

/-- Outputs put in for associated types, and projections that carry their own output replaced by it. -/
def Ty.resolve : Ty → Ty
  | .projection as r i m =>
    let r := r.resolve
    let i := Ty.resolveNominal i
    let as := Ty.resolveAll as
    if Owns applied as r i m then ownOutput applied r m
    else if as.isEmpty then (Transform.embedded i r m).getD (.projection as r i m)
    else .projection as r i m
  | .host id => .host id
  | .selfType owner => .selfType owner
  | .parameter owner position => .parameter owner position
  | .builtin b => .builtin b
  | .tuple ts => .tuple (Ty.resolveAll ts)
  | .function ps r => .function (Ty.resolveAll ps) r.resolve
  | .iter t => .iter t.resolve
  | .range t kind => .range t.resolve kind
  | .array t => .array t.resolve
  | .map k v access => .map k.resolve v.resolve access
  | .set t access => .set t.resolve access
  | .struct n => .struct (Ty.resolveNominal n)
  | .nativeObject n => .nativeObject (Ty.resolveNominal n)
  | .enum n => .enum (Ty.resolveNominal n)
  | .trait n => .trait (Ty.resolveNominal n)
  | .reference t access => .reference t.resolve access

def Ty.resolveAll : List Ty → List Ty
  | [] => []
  | t :: ts => t.resolve :: Ty.resolveAll ts

def Ty.resolveNominal : NominalTy → NominalTy
  | ⟨d, as, bs⟩ => ⟨d, Ty.resolveAll as, Ty.resolveBindings bs⟩

def Ty.resolveBindings : List (DefinitionId × Ty) → List (DefinitionId × Ty)
  | [] => []
  | b :: bs => Ty.resolveBinding b :: Ty.resolveBindings bs

def Ty.resolveBinding : DefinitionId × Ty → DefinitionId × Ty
  | (id, t) => (id, t.resolve)

end

/-- An output that the projection carries, in the bindings of its interface or of its receiver; `resolved`
says whether the receiver is a trait type before anything is put in for its variables. -/
def carried (resolved receiver : Ty) (interface : NominalTy) (member : DefinitionId) : Option Ty :=
  (interface.associatedTypes.lookup member).or
    (match resolved, receiver with
      | .trait _, .trait actual => actual.associatedTypes.lookup member
      | _, _ => none)

variable (σ : TypeVariable → Option Ty)

mutual

/-- Variables, own associated types and carried outputs replaced at once: nothing that is put in is looked
at again. -/
def Ty.instantiate : Ty → Ty
  | .projection as r i m =>
    let resolved := r.resolve applied
    let r := r.instantiate
    let i := Ty.instantiateNominal i
    let as := Ty.instantiateAll as
    if Owns applied as resolved i m then
      ownOutput applied ((σ (.receiver applied.declaration)).getD (.selfType applied.declaration)) m
    else if as.isEmpty then (carried resolved r i m).getD (.projection as r i m)
    else .projection as r i m
  | .host id => .host id
  | .selfType owner => (σ (.receiver owner)).getD (.selfType owner)
  | .parameter owner position => (σ (.parameter owner position)).getD (.parameter owner position)
  | .builtin b => .builtin b
  | .tuple ts => .tuple (Ty.instantiateAll ts)
  | .function ps r => .function (Ty.instantiateAll ps) r.instantiate
  | .iter t => .iter t.instantiate
  | .range t kind => .range t.instantiate kind
  | .array t => .array t.instantiate
  | .map k v access => .map k.instantiate v.instantiate access
  | .set t access => .set t.instantiate access
  | .struct n => .struct (Ty.instantiateNominal n)
  | .nativeObject n => .nativeObject (Ty.instantiateNominal n)
  | .enum n => .enum (Ty.instantiateNominal n)
  | .trait n => .trait (Ty.instantiateNominal n)
  | .reference t access => .reference t.instantiate access

def Ty.instantiateAll : List Ty → List Ty
  | [] => []
  | t :: ts => t.instantiate :: Ty.instantiateAll ts

def Ty.instantiateNominal : NominalTy → NominalTy
  | ⟨d, as, bs⟩ => ⟨d, Ty.instantiateAll as, Ty.instantiateBindings bs⟩

def Ty.instantiateBindings : List (DefinitionId × Ty) → List (DefinitionId × Ty)
  | [] => []
  | b :: bs => Ty.instantiateBinding b :: Ty.instantiateBindings bs

def Ty.instantiateBinding : DefinitionId × Ty → DefinitionId × Ty
  | (id, t) => (id, t.instantiate)

end

/-! ## By parts -/

@[simp] theorem Ty.resolveAll_eq (ts : List Ty) : Ty.resolveAll applied ts = ts.map (Ty.resolve applied) := by
  induction ts with
  | nil => rfl
  | cons t ts ih => simp [Ty.resolveAll, ih]

@[simp] theorem Ty.resolveBindings_eq (bs : List (DefinitionId × Ty)) :
    Ty.resolveBindings applied bs = bs.map fun b => (b.1, b.2.resolve applied) := by
  induction bs with
  | nil => rfl
  | cons b bs ih =>
    obtain ⟨id, t⟩ := b
    simp [Ty.resolveBindings, Ty.resolveBinding, ih]

@[simp] theorem Ty.resolveNominal_eq (n : NominalTy) :
    Ty.resolveNominal applied n = n.mapKids (Ty.resolve applied) := by
  obtain ⟨d, as, bs⟩ := n
  simp [Ty.resolveNominal, Nominal.mapKids]

@[simp] theorem Ty.instantiateAll_eq (ts : List Ty) :
    Ty.instantiateAll applied σ ts = ts.map (Ty.instantiate applied σ) := by
  induction ts with
  | nil => rfl
  | cons t ts ih => simp [Ty.instantiateAll, ih]

@[simp] theorem Ty.instantiateBindings_eq (bs : List (DefinitionId × Ty)) :
    Ty.instantiateBindings applied σ bs = bs.map fun b => (b.1, b.2.instantiate applied σ) := by
  induction bs with
  | nil => rfl
  | cons b bs ih =>
    obtain ⟨id, t⟩ := b
    simp [Ty.instantiateBindings, Ty.instantiateBinding, ih]

@[simp] theorem Ty.instantiateNominal_eq (n : NominalTy) :
    Ty.instantiateNominal applied σ n = n.mapKids (Ty.instantiate applied σ) := by
  obtain ⟨d, as, bs⟩ := n
  simp [Ty.instantiateNominal, Nominal.mapKids]

def Ty.IsProjection : Ty → Prop
  | .projection .. => True
  | _ => False

theorem Ty.resolve_other (h : ¬ ty.IsProjection) : ty.resolve applied = ty.mapKids (Ty.resolve applied) := by
  cases ty with
  | projection => exact absurd trivial h
  | _ => simp [Ty.resolve, Ty.mapKids]

theorem Ty.instantiate_other (h : ¬ ty.IsProjection) :
    ty.instantiate applied σ = (ty.value σ).getD (ty.mapKids (Ty.instantiate applied σ)) := by
  cases ty with
  | projection => exact absurd trivial h
  | _ => simp [Ty.instantiate, Ty.value, Ty.mapKids]

end Instantiate

variable {as : List Ty} {i n : NominalTy} {r : Ty}

section Carried

variable {applied : NominalTy}

theorem lookup_mapKids (f : Ty → Ty) (n : NominalTy) (m : DefinitionId) :
    (n.mapKids f).associatedTypes.lookup m = (n.associatedTypes.lookup m).map f := by
  obtain ⟨d, as, bs⟩ := n
  show (bs.map fun b => (b.1, f b.2)).lookup m = (bs.lookup m).map f
  induction bs with
  | nil => rfl
  | cons b bs ih =>
    obtain ⟨id, t⟩ := b
    rw [map_cons, lookup_cons, lookup_cons]
    cases m == id with
    | true => rfl
    | false => exact ih

theorem mem_kids_of_lookup {t : Ty}
    (h : n.associatedTypes.lookup m = some t) : t ∈ n.kids := by
  obtain ⟨d, as, bs⟩ := n
  refine mem_append_right _ ?_
  change bs.lookup m = some t at h
  induction bs with
  | nil => cases h
  | cons b bs ih =>
    obtain ⟨id, u⟩ := b
    rw [lookup_cons] at h
    split at h
    · rw [← Option.some.inj h]
      exact mem_cons_self
    · exact mem_cons_of_mem _ (ih h)

theorem embedded_self {owner m : DefinitionId} :
    Transform.embedded i (.selfType owner) m = i.associatedTypes.lookup m := by
  simp [Transform.embedded]

/-- Nothing in the type is resolved: no projection carries its output, and those of own associated types
have none and are on the applied trait itself. -/
inductive Ty.Settled (applied : NominalTy) : Ty → Prop
  | other {ty : Ty} : ¬ ty.IsProjection → (∀ k ∈ ty.kids, Ty.Settled applied k) → Ty.Settled applied ty
  | projection {as : List Ty} {r : Ty} {i : NominalTy} {m : DefinitionId} :
      (as = [] → Transform.embedded i r m = none) →
      (Owns applied as r i m → applied.associatedTypes.lookup m = none ∧ i = applied) →
      (∀ k ∈ (Ty.projection as r i m).kids, Ty.Settled applied k) →
      Ty.Settled applied (.projection as r i m)

theorem Ty.Settled.kid {ty k : Ty} (h : ty.Settled applied) (hk : k ∈ ty.kids) : k.Settled applied := by
  cases h with
  | other _ hkids => exact hkids k hk
  | projection _ _ hkids => exact hkids k hk

/-- Own associated types are the same before and after their interface is transformed. -/
theorem owns_map (f g : Ty → Ty) :
    Owns applied (as.map f) r (i.mapKids g) m ↔ Owns applied as r i m := by
  unfold Owns
  rw [lookup_mapKids, map_eq_nil_iff, Option.map_eq_none_iff]
  rfl

theorem Owns.not_carried (h : Owns applied as r i m) :
    Transform.embedded i r m = none := by
  rw [h.2.2.2, embedded_self, h.2.1]

theorem Ty.resolve_projection (as : List Ty) (r : Ty) (i : NominalTy) (m : DefinitionId) :
    (Ty.projection as r i m).resolve applied =
      if Owns applied as (r.resolve applied) i m then ownOutput applied (r.resolve applied) m
      else if as = [] then (Transform.embedded (i.mapKids (Ty.resolve applied)) (r.resolve applied) m).getD
        (.projection (as.map (Ty.resolve applied)) (r.resolve applied) (i.mapKids (Ty.resolve applied)) m)
      else .projection (as.map (Ty.resolve applied)) (r.resolve applied) (i.mapKids (Ty.resolve applied)) m := by
  simp only [Ty.resolve, Ty.resolveAll_eq, Ty.resolveNominal_eq, owns_map, List.isEmpty_iff, List.map_eq_nil_iff]

end Carried

/-! ## What stands in a resolved type -/

/-- Along the bindings of trait types. -/
def Ty.along : List DefinitionId → Ty → Option Ty
  | [], ty => some ty
  | m :: path, .trait n => (n.associatedTypes.lookup m).bind (Ty.along path)
  | _ :: _, _ => none

theorem Ty.along_one (n : NominalTy) (m : DefinitionId) : (Ty.trait n).along [m] = n.associatedTypes.lookup m :=
  Option.bind_fun_some _

theorem Ty.along_cons {ty u : Ty} (h : ty.along (m :: path) = some u) :
    ∃ n k, ty = .trait n ∧ n.associatedTypes.lookup m = some k ∧ k.along path = some u := by
  cases ty with
  | trait n =>
    obtain ⟨k, hlook, hk⟩ := Option.bind_eq_some_iff.mp h
    exact ⟨n, k, rfl, hlook, hk⟩
  | _ => cases h

theorem Ty.along_trait {k u : Ty}
    (hlook : n.associatedTypes.lookup m = some k) (hk : k.along path = some u) :
    (Ty.trait n).along (m :: path) = some u :=
  Option.bind_eq_some_iff.mpr ⟨k, hlook, hk⟩

theorem Ty.along_append {ty k u : Ty} (h : ty.along [m] = some k)
    (hk : k.along path = some u) : ty.along (m :: path) = some u := by
  obtain ⟨n, k', rfl, hlook, hsame⟩ := Ty.along_cons h
  cases hsame
  exact Ty.along_trait hlook hk

/-- `Self`, or what is found along a path in the output of an own associated type. -/
inductive Place where
  | self
  | own (member : DefinitionId) (rest : List DefinitionId)

/-- The place stands in the resolved type, along the path. What resolving drops does not: a projection that
carries its output leaves that output only. -/
inductive Stands (applied : NominalTy) : List DefinitionId → Ty → Place → Prop
  | self : Stands applied [] (.selfType applied.declaration) .self
  | kid {ty k : Ty} {place : Place} : ¬ ty.IsProjection → k ∈ ty.kids → Stands applied [] k place →
      Stands applied [] ty place
  | binding {n : NominalTy} {m : DefinitionId} {path : List DefinitionId} {k : Ty} {place : Place} :
      n.associatedTypes.lookup m = some k → Stands applied path k place → Stands applied (m :: path) (.trait n) place
  | own {path : List DefinitionId} {r : Ty} {i : NominalTy} {m : DefinitionId} :
      Owns applied [] (r.resolve applied) i m → Stands applied path (.projection [] r i m) (.own m path)
  | interface {path : List DefinitionId} {r k : Ty} {i : NominalTy} {m : DefinitionId} {place : Place} :
      i.associatedTypes.lookup m = some k → Stands applied path k place →
      Stands applied path (.projection [] r i m) place
  | receiver {path : List DefinitionId} {r k : Ty} {i : NominalTy} {m : DefinitionId} {place : Place} :
      i.associatedTypes.lookup m = none → (r.resolve applied).along [m] = some k → Stands applied (m :: path) r place →
      Stands applied path (.projection [] r i m) place
  | kept {as : List Ty} {r k : Ty} {i : NominalTy} {m : DefinitionId} {place : Place} :
      ¬ Owns applied as (r.resolve applied) i m →
      (as = [] → Transform.embedded (i.mapKids (Ty.resolve applied)) (r.resolve applied) m = none) →
      k ∈ (Ty.projection as r i m).kids → Stands applied [] k place → Stands applied [] (.projection as r i m) place

variable {P : Ty → Prop}

section Standing

variable {applied : NominalTy}

theorem embedded_eq (i : NominalTy) (r : Ty) (m : DefinitionId) :
    Transform.embedded i r m = (i.associatedTypes.lookup m).or (r.along [m]) := by
  cases r with
  | trait actual =>
    rw [Ty.along_one]
    rfl
  | _ => rfl

section Resolve

variable {as : List Ty} {r k : Ty} {i : NominalTy} {m : DefinitionId}

theorem Ty.resolve_own (h : Owns applied [] (r.resolve applied) i m) :
    (Ty.projection [] r i m).resolve applied = ownOutput applied (.selfType applied.declaration) m := by
  rw [Ty.resolve_projection, if_pos h, h.2.2.2]

theorem Ty.resolve_interface (h : i.associatedTypes.lookup m = some k) :
    (Ty.projection [] r i m).resolve applied = k.resolve applied := by
  have hnot : ¬ Owns applied [] (r.resolve applied) i m := fun howns => nomatch howns.2.1.symm.trans h
  rw [Ty.resolve_projection, if_neg hnot, if_pos rfl, embedded_eq, lookup_mapKids, h]
  rfl

theorem Ty.resolve_receiver (hnone : i.associatedTypes.lookup m = none) (h : (r.resolve applied).along [m] = some k) :
    (Ty.projection [] r i m).resolve applied = k := by
  have hnot : ¬ Owns applied [] (r.resolve applied) i m := by
    intro howns
    rw [howns.2.2.2] at h
    cases h
  rw [Ty.resolve_projection, if_neg hnot, if_pos rfl, embedded_eq, lookup_mapKids, hnone, h]
  rfl

theorem Ty.resolve_kept (hnot : ¬ Owns applied as (r.resolve applied) i m)
    (h : as = [] → Transform.embedded (i.mapKids (Ty.resolve applied)) (r.resolve applied) m = none) :
    (Ty.projection as r i m).resolve applied =
      .projection (as.map (Ty.resolve applied)) (r.resolve applied) (i.mapKids (Ty.resolve applied)) m := by
  rw [Ty.resolve_projection, if_neg hnot]
  split
  · rename_i hnil
    rw [h hnil]
    rfl
  · rfl

/-- Every projection is resolved in one of these ways. -/
theorem Ty.resolve_cases (applied : NominalTy) (as : List Ty) (r : Ty) (i : NominalTy) (m : DefinitionId) :
    (as = [] ∧ Owns applied [] (r.resolve applied) i m) ∨
    (as = [] ∧ ∃ k, i.associatedTypes.lookup m = some k) ∨
    (as = [] ∧ i.associatedTypes.lookup m = none ∧ ∃ k, (r.resolve applied).along [m] = some k) ∨
    (¬ Owns applied as (r.resolve applied) i m ∧
      (as = [] → Transform.embedded (i.mapKids (Ty.resolve applied)) (r.resolve applied) m = none)) := by
  by_cases hnil : as = []
  · subst hnil
    by_cases howns : Owns applied [] (r.resolve applied) i m
    · exact .inl ⟨rfl, howns⟩
    cases hlook : i.associatedTypes.lookup m with
    | some k => exact .inr (.inl ⟨rfl, k, rfl⟩)
    | none =>
      cases hr : (r.resolve applied).along [m] with
      | some k => exact .inr (.inr (.inl ⟨rfl, rfl, k, rfl⟩))
      | none =>
        refine .inr (.inr (.inr ⟨howns, fun _ => ?_⟩))
        rw [embedded_eq, lookup_mapKids, hlook, hr]
        rfl
  · exact .inr (.inr (.inr ⟨fun howns => hnil howns.1, fun h => absurd h hnil⟩))

end Resolve

/-- What is put in for own associated types, where it stands. -/
structure OutputsHold (applied : NominalTy) (P : Ty → Prop) (path : List DefinitionId) (ty : Ty) : Prop where
  bound : ∀ m rest, Stands applied path ty (.own m rest) → ∀ output, applied.associatedTypes.lookup m = some output →
    ∀ part, output.along rest = some part → P part
  unbound : ∀ m, Stands applied path ty (.own m []) → applied.associatedTypes.lookup m = none →
    ∀ k ∈ applied.kids, P k

theorem OutputsHold.of {path path' : List DefinitionId} {ty ty' : Ty}
    (h : OutputsHold applied P path ty)
    (hstands : ∀ place, Stands applied path' ty' place → Stands applied path ty place) :
    OutputsHold applied P path' ty' :=
  ⟨fun m rest hs => h.bound m rest (hstands _ hs), fun m hs => h.unbound m (hstands _ hs)⟩

theorem OutputsHold.mono {P Q : Ty → Prop} (h : OutputsHold applied P path ty)
    (hPQ : ∀ t, P t → Q t) : OutputsHold applied Q path ty :=
  ⟨fun m rest hs output hlook part hpart => hPQ _ (h.bound m rest hs output hlook part hpart),
    fun m hs hlook k hk => hPQ _ (h.unbound m hs hlook k hk)⟩

abbrev OutputsSettled (applied : NominalTy) : List DefinitionId → Ty → Prop := OutputsHold applied (Ty.Settled applied)

/-- Where a projection of an own associated type is along a path, its output is. -/
theorem ownOutput_along {u : Ty}
    (h : (ownOutput applied (.selfType applied.declaration) m).along path = some u) :
    (∃ output, applied.associatedTypes.lookup m = some output ∧ output.along path = some u) ∨
    (applied.associatedTypes.lookup m = none ∧ path = [] ∧
      u = .projection [] (.selfType applied.declaration) applied m) := by
  unfold ownOutput at h
  cases hlook : applied.associatedTypes.lookup m with
  | some output =>
    rw [hlook] at h
    exact .inl ⟨output, rfl, h⟩
  | none =>
    rw [hlook] at h
    cases path with
    | nil => exact .inr ⟨rfl, rfl, (Option.some.inj h).symm⟩
    | cons _ _ => cases h

theorem Ty.settled_self (owner : DefinitionId) : (Ty.selfType owner).Settled applied :=
  .other id (by simp [Ty.kids])

/-- Where the type resolves to `Self`, nothing but `Self` is put in. -/
theorem Stands.of_self {place : Place} (h : Stands applied path ty place) :
    (ty.resolve applied).along path = some (.selfType applied.declaration) → ∀ m rest, place = .own m rest →
      ∃ output, applied.associatedTypes.lookup m = some output ∧
        output.along rest = some (.selfType applied.declaration) := by
  induction h with
  | self => exact fun _ _ _ h => nomatch h
  | @kid ty k _ hproj hk _ _ =>
    intro hself
    rw [Ty.resolve_other applied hproj] at hself
    cases ty with
    | selfType owner => cases hk
    | _ => cases hself
  | @binding n m path k _ hlook _ ih =>
    intro hself
    refine ih ?_
    rw [Ty.resolve_other applied id] at hself
    obtain ⟨_, k', heq, hk', hself⟩ := Ty.along_cons hself
    cases heq
    rw [lookup_mapKids, hlook] at hk'
    cases hk'
    exact hself
  | @own path r i m howns =>
    intro hself _ _ heq
    cases heq
    rw [Ty.resolve_own howns] at hself
    rcases ownOutput_along hself with h | ⟨-, -, h⟩
    · exact h
    · cases h
  | interface hlook _ ih =>
    intro hself
    rw [Ty.resolve_interface hlook] at hself
    exact ih hself
  | receiver hnone hk _ ih =>
    intro hself
    rw [Ty.resolve_receiver hnone hk] at hself
    exact ih (Ty.along_append hk hself)
  | kept howns hcarr _ _ _ =>
    intro hself
    rw [Ty.resolve_kept howns hcarr] at hself
    cases hself

theorem OutputsSettled.of_self
    (h : (ty.resolve applied).along path = some (.selfType applied.declaration)) : OutputsSettled applied path ty := by
  refine ⟨fun m rest hs output hlook part hpart => ?_, fun m hs hlook => ?_⟩
  · obtain ⟨output', hlook', hself⟩ := hs.of_self h m rest rfl
    cases hlook.symm.trans hlook'
    rw [← Option.some.inj (hself.symm.trans hpart)]
    exact Ty.settled_self _
  · obtain ⟨output', hlook', -⟩ := hs.of_self h m [] rfl
    rw [hlook] at hlook'
    cases hlook'

end Standing

/-! ## The pass that resolves -/

namespace Transform

section Parts

variable {t : Transform} {applied : NominalTy} {visit : Ty → TransformM Ty} {depth : Nat} {f : Ty → Ty}

/-- Outputs matter to projections only. -/
theorem rebuild_other (hty : ¬ ty.IsProjection) (h : ∀ k ∈ ty.kids, Ensures (visit k) (· = f k)) :
    Ensures (t.rebuild visit depth ty) (· = ty.mapKids f) := by
  have hplain := @rebuild_ensures { t with outputs := none, lookup := none } _ depth _ rfl rfl _ h
  cases ty with
  | projection => exact absurd trivial hty
  | _ => exact hplain

/-- What is found for a key stands for what was there. -/
theorem nominal_lookup {m : DefinitionId}
    (h : ∀ k, n.associatedTypes.lookup m = some k → Ensures (visit k) P) :
    Ensures (t.nominal visit depth n) fun n' => n'.declaration = n.declaration ∧
      (n.associatedTypes.lookup m = none → n'.associatedTypes.lookup m = none) ∧
      ∀ k, n.associatedTypes.lookup m = some k → ∃ k', n'.associatedTypes.lookup m = some k' ∧ P k' := by
  obtain ⟨d, as, bs⟩ := n
  have hbnds : Ensures (bs.mapM fun binding => do let value ← visit binding.2; return (binding.1, value))
      fun bs' => (bs.lookup m = none → bs'.lookup m = none) ∧
        ∀ k, bs.lookup m = some k → ∃ k', bs'.lookup m = some k' ∧ P k' := by
    change ∀ k, bs.lookup m = some k → _ at h
    induction bs with
    | nil => exact Ensures.pure ⟨fun h => h, nofun⟩
    | cons b bs ih =>
      obtain ⟨id, u⟩ := b
      rw [mapM_cons]
      simp only [lookup_cons] at h ⊢
      cases hid : m == id with
      | true =>
        rw [hid] at h
        refine .bind (P := fun b : DefinitionId × Ty => b.1 = id ∧ P b.2)
          (.bind (h u rfl) fun value hval => Ensures.pure ⟨rfl, hval⟩) ?_
        rintro ⟨_, value⟩ ⟨rfl, hval⟩
        refine .bind .any fun bs' _ => Ensures.pure ⟨nofun, fun k _ => ⟨value, ?_, hval⟩⟩
        rw [lookup_cons, hid]
      | false =>
        rw [hid] at h
        refine .bind (P := fun b : DefinitionId × Ty => b.1 = id) (.bind .any fun _ _ => Ensures.pure rfl) ?_
        rintro ⟨_, value⟩ rfl
        refine .bind (ih h) fun bs' hbs' => Ensures.pure ?_
        rw [lookup_cons, hid]
        exact hbs'
  exact .seq (.guarded fun _ => .bind .any fun _ _ => .bind hbnds fun bs' hbs' => .pure ⟨rfl, hbs'⟩)

/-- Below a binding of an interface. -/
theorem rebuild_trait {m : DefinitionId} {path : List DefinitionId} {u k : Ty}
    (hk : n.associatedTypes.lookup m = some k) (h : Ensures (visit k) (Ty.along path · = some u)) :
    Ensures (t.rebuild visit depth (.trait n)) (Ty.along (m :: path) · = some u) := by
  refine .bind (nominal_lookup (m := m) (P := (Ty.along path · = some u)) fun k' hk' => ?_) fun n' hn' => .pure ?_
  · cases hk.symm.trans hk'
    exact h
  · obtain ⟨k', hk', hu'⟩ := hn'.2.2 k hk
    exact Ty.along_trait hk' hu'

/-- A projection, from what its parts become. -/
theorem rebuild_projection {as : List Ty} {r : Ty} {i : NominalTy} {m : DefinitionId} {R Q : Ty → Prop}
    {I : NominalTy → Prop} {A : List Ty → Prop} (hr : Ensures (visit r) R) (hi : Ensures (t.nominal visit depth i) I)
    (has : Ensures (many visit as) A)
    (h : ∀ r' i' as', R r' → I i' → A as' → Ensures (t.projection visit depth r' i' m as') Q) :
    Ensures (t.rebuild visit depth (.projection as r i m)) Q :=
  .bind hr fun r' hr' => .bind hi fun i' hi' => .bind has fun as' has' => h r' i' as' hr' hi' has'

variable (houts : t.outputs = some (applied, .selfType applied.declaration)) (hlook : t.lookup = none)
  {as : List Ty} {r : Ty} {i : NominalTy} {m : DefinitionId}

include houts

theorem projection_carried {output : Ty} (h : embedded i r m = some output) :
    t.projection visit depth r i m [] = visit output := by
  simp [projection, houts, h]

include hlook

theorem projection_own (h : Owns applied as r i m) :
    t.projection visit depth r i m as = match applied.associatedTypes.lookup m with
      | some output => visit output
      | none => do return .projection [] r (← t.nominal visit depth applied) m := by
  have hrsvd : t.resolved i r = some applied := by
    unfold resolved
    rw [houts]
    exact if_pos h.2.2
  cases hfound : applied.associatedTypes.lookup m <;>
    simp only [projection, houts, Option.isSome_some, true_or, if_true, h.1, isEmpty_nil, hrsvd,
      h.not_carried, Option.none_or, Option.bind_some, hlook, hfound]

theorem projection_kept (hcarr : as = [] → embedded i r m = none) (h : ¬ Owns applied as r i m) :
    t.projection visit depth r i m as = pure (.projection as r i m) := by
  unfold projection
  rw [if_pos (by simp [houts])]
  cases as with
  | cons a as => simp [hlook]
  | nil =>
    have hnone := hcarr rfl
    have hrsvd : t.resolved i r = none := by
      unfold resolved
      rw [houts]
      refine if_neg fun hown => h ⟨rfl, ?_, hown⟩
      rw [hown.2, embedded_self] at hnone
      exact hnone
    simp [hlook, hnone, hrsvd]

end Parts

section Resolve

variable {t : Transform} {applied : NominalTy} (houts : t.outputs = some (applied, .selfType applied.declaration))
  (hlook : t.lookup = none) (hrepl : ∀ ty, t.replacement ty = none)

include houts hlook hrepl

/-- What is settled is given back. -/
theorem visit_settled (fuel : Nat) : ∀ depth replace path ty u, ty.along path = some u → u.Settled applied →
    Ensures (t.visit fuel depth replace ty) (Ty.along path · = some u) := by
  induction fuel with
  | zero => exact fun _ _ _ _ _ _ _ => .seq Ensures.throw
  | succ fuel ih =>
    intro depth replace path ty u halong hsett
    rw [visit_kept fun _ => hrepl ty]
    refine .seq ?_
    cases path with
    | cons m path =>
      obtain ⟨n, k, rfl, hk, hu⟩ := Ty.along_cons halong
      exact rebuild_trait hk (ih _ _ _ _ _ hu hsett)
    | nil =>
      cases halong
      have hkid : ∀ k ∈ ty.kids, Ensures (t.visit fuel (depth + 1) replace k) (· = k) := fun k hk =>
        (ih _ _ [] k k rfl (hsett.kid hk)).mono fun _ h => Option.some.inj h
      refine Ensures.mono (P := (· = ty)) ?_ fun _ h => congrArg some h
      cases hsett with
      | other hty _ =>
        refine (rebuild_other (f := fun k => k) hty hkid).mono fun result h => ?_
        rw [h, Ty.mapKids_id]
      | @projection as r i m hcarr howns _ =>
        refine rebuild_projection (hkid _ (by simp [Ty.kids]))
          (nominal_ensures (f := fun k => k) fun k hk => hkid k (by simp [Ty.kids, hk]))
          (many_ensures (f := fun k => k) fun k hk => hkid k (by simp [Ty.kids, hk])) ?_
        rintro r _ _ rfl rfl rfl
        rw [map_id', Nominal.mapKids_id]
        by_cases howned : Owns applied as r i m
        · obtain ⟨hnone, rfl⟩ := howns howned
          rw [projection_own houts hlook howned, hnone, howned.1]
          refine .bind (nominal_ensures (f := fun k => k) fun k hk => hkid k (by simp [Ty.kids, hk])) ?_
          rintro _ rfl
          rw [Nominal.mapKids_id]
          exact .pure rfl
        · rw [projection_kept houts hlook hcarr howned]
          exact .pure rfl

end Resolve

end Transform

section Along

variable {applied : NominalTy}

/-- A kid of a type that is no projection. -/
theorem OutputsHold.kid {P : Ty → Prop} {ty k : Ty} (h : OutputsHold applied P [] ty) (hproj : ¬ ty.IsProjection)
    (hk : k ∈ ty.kids) : OutputsHold applied P [] k :=
  h.of fun _ hs => .kid hproj hk hs

/-- A path into what a type that is no projection resolves to begins at one of its own bindings. -/
theorem Ty.along_resolve_cons (hproj : ¬ ty.IsProjection) (h : (ty.resolve applied).along (m :: path) = some u) :
    ∃ n k, ty = .trait n ∧ n.associatedTypes.lookup m = some k ∧ (k.resolve applied).along path = some u := by
  rw [Ty.resolve_other applied hproj] at h
  obtain ⟨n', k', heq, hk', hu⟩ := Ty.along_cons h
  cases ty with
  | trait n =>
    cases heq
    rw [lookup_mapKids] at hk'
    obtain ⟨k, hk, rfl⟩ := Option.map_eq_some_iff.mp hk'
    exact ⟨n, k, rfl, hk, hu⟩
  | _ => cases heq

/-- Where what is put in is settled, what stands is. -/
theorem Ty.settled_resolve (ty : Ty) : ∀ path u, (ty.resolve applied).along path = some u →
    OutputsSettled applied path ty → u.Settled applied := by
  induction ty using Ty.kids_induction with
  | step ty ih =>
    intro path u halong h
    by_cases hproj : ty.IsProjection
    · cases ty with
      | projection as r i m =>
        rcases Ty.resolve_cases applied as r i m with ⟨rfl, howns⟩ | ⟨rfl, k, hk⟩ | ⟨rfl, hnone, k, hk⟩ |
          ⟨howns, hcarr⟩
        · rw [Ty.resolve_own howns] at halong
          rcases ownOutput_along halong with ⟨output, hlooked, hu⟩ | ⟨hlooked, rfl, rfl⟩
          · exact h.bound m path (.own howns) output hlooked u hu
          · refine .projection (fun _ => ?_) (fun _ => ⟨hlooked, rfl⟩) fun k hk => ?_
            · rw [embedded_self, hlooked]
            · simp only [Ty.kids, append_nil, mem_cons] at hk
              rcases hk with rfl | hk
              · exact Ty.settled_self _
              · exact h.unbound m (.own howns) hlooked k hk
        · rw [Ty.resolve_interface hk] at halong
          exact ih k (by simp [Ty.kids, mem_kids_of_lookup hk]) path u halong (h.of fun _ hs => .interface hk hs)
        · rw [Ty.resolve_receiver hnone hk] at halong
          exact ih r (by simp [Ty.kids]) (m :: path) u (Ty.along_append hk halong)
            (h.of fun _ hs => .receiver hnone hk hs)
        · rw [Ty.resolve_kept howns hcarr] at halong
          cases path with
          | cons _ _ => cases halong
          | nil =>
            have hkid : ∀ k ∈ (Ty.projection as r i m).kids, (k.resolve applied).Settled applied := fun k hk =>
              ih k hk [] _ rfl (h.of fun _ hs => .kept howns hcarr hk hs)
            rw [← Option.some.inj halong]
            refine .projection (fun hnil => hcarr (map_eq_nil_iff.mp hnil))
              (fun h => absurd ((owns_map _ _).mp h) howns) fun k hk => ?_
            simp only [Ty.kids, Nominal.kids_mapKids, mem_cons, mem_append, mem_map] at hk
            rcases hk with rfl | ⟨k, hk, rfl⟩ | ⟨k, hk, rfl⟩
            · exact hkid r (by simp [Ty.kids])
            · exact hkid k (by simp [Ty.kids, hk])
            · exact hkid k (by simp [Ty.kids, hk])
      | _ => exact absurd hproj id
    · cases path with
      | cons m path =>
        obtain ⟨n, k, rfl, hk, hu⟩ := Ty.along_resolve_cons hproj halong
        exact ih k (mem_kids_of_lookup hk) path u hu (h.of fun _ hs => .binding hk hs)
      | nil =>
        rw [Ty.resolve_other applied hproj] at halong
        rw [← Option.some.inj halong]
        refine .other ?_ fun k hk => ?_
        · cases ty with
          | projection => exact absurd trivial hproj
          | _ => exact id
        · rw [Ty.kids_mapKids] at hk
          obtain ⟨k, hkid, rfl⟩ := mem_map.mp hk
          exact ih k hkid [] _ rfl (h.kid hproj hkid)

/-- The pass returns the resolved type, along every path where what is put in is settled. -/
theorem Transform.visit_resolve {t : Transform}
    (houts : t.outputs = some (applied, .selfType applied.declaration)) (hlook : t.lookup = none)
    (hrepl : ∀ ty, t.replacement ty = none) (fuel : Nat) : ∀ depth ty path u,
      (ty.resolve applied).along path = some u → OutputsSettled applied path ty →
      Ensures (t.visit fuel depth true ty) (Ty.along path · = some u) := by
  induction fuel with
  | zero => exact fun _ _ _ _ _ _ => .seq Ensures.throw
  | succ fuel ih =>
    intro depth ty path u halong h
    rw [visit_kept fun _ => hrepl ty]
    refine .seq ?_
    -- an output that is found is visited once more
    have hagain : ∀ {output : Ty}, output.along path = some u →
        Ensures (t.visit fuel (depth + 1) true output) (Ty.along path · = some u) := fun hout =>
      visit_settled houts hlook hrepl fuel _ true path _ _ hout (ty.settled_resolve path u halong h)
    by_cases hproj : ty.IsProjection
    · cases ty with
      | projection as r i m =>
        have hmany : as = [] → Ensures (many (t.visit fuel (depth + 1) true) as) (· = []) := by
          rintro rfl
          exact many_ensures (f := fun k => k) nofun
        rcases Ty.resolve_cases applied as r i m with ⟨rfl, howns⟩ | ⟨rfl, k, hk⟩ | ⟨rfl, hnone, k, hk⟩ |
          ⟨howns, hcarr⟩
        · rw [Ty.resolve_own howns] at halong
          have hself : (r.resolve applied).along [] = some (.selfType applied.declaration) := congrArg some howns.2.2.2
          refine rebuild_projection (ih (depth + 1) r [] _ hself (.of_self hself))
            (nominal_lookup (m := m) (P := fun _ => True) fun _ _ => .any) (hmany rfl) ?_
          rintro r' i' _ hr hi rfl
          cases hr
          rw [projection_own houts hlook ⟨rfl, hi.2.1 howns.2.1, hi.1.trans howns.2.2.1, rfl⟩]
          rcases ownOutput_along halong with ⟨output, hlooked, hu⟩ | ⟨hlooked, rfl, rfl⟩
          · rw [hlooked]
            exact hagain hu
          · rw [hlooked]
            refine .bind (nominal_ensures (f := fun k => k) fun k hk => ?_) ?_
            · exact (visit_settled houts hlook hrepl fuel _ true [] k k rfl
                (h.unbound m (.own howns) hlooked k hk)).mono fun _ h => Option.some.inj h
            · rintro _ rfl
              rw [Nominal.mapKids_id]
              exact .pure rfl
        · rw [Ty.resolve_interface hk] at halong
          refine rebuild_projection .any (nominal_lookup (m := m) (P := (Ty.along path · = some u)) fun k' hk' => ?_)
            (hmany rfl) ?_
          · cases hk.symm.trans hk'
            exact ih (depth + 1) k path u halong (h.of fun _ hs => .interface hk hs)
          · rintro r' i' _ - hi rfl
            obtain ⟨k', hk', hu⟩ := hi.2.2 k hk
            rw [projection_carried houts (by rw [embedded_eq, hk']; rfl)]
            exact hagain hu
        · rw [Ty.resolve_receiver hnone hk] at halong
          refine rebuild_projection (ih (depth + 1) r (m :: path) u (Ty.along_append hk halong)
            (h.of fun _ hs => .receiver hnone hk hs)) (nominal_lookup (m := m) (P := fun _ => True) fun _ _ => .any)
            (hmany rfl) ?_
          rintro r' i' _ hr hi rfl
          obtain ⟨actual, k', rfl, hk', hu⟩ := Ty.along_cons hr
          rw [projection_carried houts (by rw [embedded_eq, hi.2.1 hnone, Ty.along_trait hk' rfl]; rfl)]
          exact hagain hu
        · rw [Ty.resolve_kept howns hcarr] at halong
          cases path with
          | cons _ _ => cases halong
          | nil =>
            cases halong
            have hkid : ∀ k ∈ (Ty.projection as r i m).kids,
                Ensures (t.visit fuel (depth + 1) true k) (· = k.resolve applied) := fun k hk =>
              (ih _ k [] _ rfl (h.of fun _ hs => .kept howns hcarr hk hs)).mono fun _ h => Option.some.inj h
            refine rebuild_projection (hkid r (by simp [Ty.kids]))
              (nominal_ensures fun k hk => hkid k (by simp [Ty.kids, hk]))
              (many_ensures fun k hk => hkid k (by simp [Ty.kids, hk])) ?_
            rintro _ _ _ rfl rfl rfl
            rw [projection_kept houts hlook (fun hnil => hcarr (map_eq_nil_iff.mp hnil))
              fun h => howns ((owns_map _ _).mp h)]
            exact .pure rfl
      | _ => exact absurd hproj id
    · cases path with
      | cons m path =>
        obtain ⟨n, k, rfl, hk, hu⟩ := Ty.along_resolve_cons hproj halong
        exact rebuild_trait hk (ih _ k path u hu (h.of fun _ hs => .binding hk hs))
      | nil =>
        rw [Ty.resolve_other applied hproj] at halong
        cases halong
        exact (rebuild_other hproj fun k hk => (ih _ k [] _ rfl (h.kid hproj hk)).mono
          fun _ h => Option.some.inj h).mono fun _ h => congrArg some h

end Along

theorem resolveAssociatedOutputs_ok {applied : NominalTy} {ty result : Ty} (h : OutputsSettled applied [] ty)
    (hres : resolveAssociatedOutputs ty applied (.selfType applied.declaration) false = .ok result) :
    result = ty.resolve applied := by
  unfold resolveAssociatedOutputs Transform.run at hres
  obtain ⟨⟨value, remaining⟩, hvis, hlims⟩ := bind_ok.mp hres
  have hval := Option.some.inj (Transform.visit_resolve rfl rfl (fun ty => by cases ty <;> rfl) _ _ ty [] _ rfl h
    _ _ _ hvis)
  dsimp only at hlims hval
  split at hlims
  · rw [← hval]
    exact (Except.ok.inj hlims).symm
  · cases hlims

/-! ## The passes that substitute -/

section Passes

variable (contract : TraitDef) (applied : NominalTy) (receiver : Ty)

theorem parameters_values (owner : DefinitionId) : (contract.parameters applied).values (.receiver owner) = none := by
  have hfold : ∀ (l : List ((DefinitionId × Nat) × Ty)) (substitution : TypeSubstitution),
      (l.foldl (fun substitution (parameter, argument) => substitution.bind parameter.1 parameter.2 argument)
        substitution).receivers = substitution.receivers := by
    intro l
    induction l with
    | nil => exact fun _ => rfl
    | cons e l ih => exact fun substitution => ih _
  exact congrFun (hfold _ .empty) owner

@[simp] theorem receivers_receiver (owner : DefinitionId) : (receivers applied receiver).values (.receiver owner) =
    if owner = applied.declaration then some receiver else none := rfl

/-- The receiver and the arguments. -/
def together : TypeVariable → Option Ty
  | .parameter owner position => (contract.parameters applied).values (.parameter owner position)
  | .receiver owner => if owner = applied.declaration then some receiver else none

/-- One substitution after the other. -/
def substTwice (ty : Ty) : Ty :=
  (ty.subst (receivers applied receiver).values).subst (contract.parameters applied).values

/-- No pass changes the type. -/
structure Untouched (ty : Ty) : Prop where
  settled : ty.Settled applied
  receivers : ty.subst (receivers applied receiver).values = ty
  parameters : ty.subst (contract.parameters applied).values = ty

/-- No pass changes what an earlier one has put in where it stands in the resolved type: the receiver for
`Self`, and outputs for own associated types; or, where there is no output, the applied trait itself. -/
structure Apart (path : List DefinitionId) (ty : Ty) : Prop where
  self : Stands applied path ty .self → receiver.subst (contract.parameters applied).values = receiver
  outputs : OutputsHold applied (Untouched contract applied receiver) path ty
  unbound : ∀ m, Stands applied path ty (.own m []) → applied.associatedTypes.lookup m = none →
    receiver.subst (contract.parameters applied).values = receiver

end Passes

section Agree

variable {contract : TraitDef} {applied : NominalTy} {receiver : Ty}

theorem Apart.of {path path' : List DefinitionId} {ty ty' : Ty} (h : Apart contract applied receiver path ty)
    (hstands : ∀ place, Stands applied path' ty' place → Stands applied path ty place) :
    Apart contract applied receiver path' ty' :=
  ⟨fun hs => h.self (hstands _ hs), h.outputs.of hstands, fun m hs => h.unbound m (hstands _ hs)⟩

theorem Apart.settled (h : Apart contract applied receiver path ty) :
    OutputsSettled applied path ty :=
  h.outputs.mono fun _ => Untouched.settled

theorem Untouched.substTwice (h : Untouched contract applied receiver ty) :
    substTwice contract applied receiver ty = ty := by
  unfold Kagari.substTwice
  rw [h.receivers, h.parameters]

theorem Ty.value_mapKids (h : ∀ σ, ty.value σ = none) (f : Ty → Ty) (σ : TypeVariable → Option Ty) :
    (ty.mapKids f).value σ = none := by
  cases ty with
  | selfType owner => cases h fun _ => some (.selfType owner)
  | parameter owner position => cases h fun _ => some (.parameter owner position)
  | _ => rfl

/-- Below anything but a variable. -/
theorem substTwice_mapKids (h : ∀ σ, ty.value σ = none) :
    substTwice contract applied receiver ty = ty.mapKids (substTwice contract applied receiver) := by
  have hfst : ty.subst (receivers applied receiver).values =
      ty.mapKids (.subst (receivers applied receiver).values) := by
    rw [Ty.subst_eq, h, Option.getD_none]
  unfold substTwice
  rw [hfst, Ty.subst_eq, Ty.value_mapKids h, Option.getD_none, Ty.mapKids_mapKids]

variable (contract applied receiver) in
/-- The passes over the type instantiate it, where none changes what an earlier one has put in. -/
def PassesAgree (ty : Ty) : Prop :=
  ∀ path u, (ty.resolve applied).along path = some u → Apart contract applied receiver path ty →
    (ty.instantiate applied (together contract applied receiver)).along path =
      some (substTwice contract applied receiver u)

theorem passesAgree_other (hproj : ¬ ty.IsProjection) (hval : ∀ σ, ty.value σ = none)
    (ih : ∀ k ∈ ty.kids, PassesAgree contract applied receiver k) : PassesAgree contract applied receiver ty := by
  intro path u halong h
  rw [Ty.instantiate_other applied _ hproj, hval, Option.getD_none]
  cases path with
  | nil =>
    rw [Ty.resolve_other applied hproj] at halong
    rw [← Option.some.inj halong, substTwice_mapKids (Ty.value_mapKids hval _), Ty.mapKids_mapKids]
    refine congrArg some (Ty.mapKids_congr fun k hk => ?_)
    exact Option.some.inj (ih k hk [] _ rfl (h.of fun _ hs => .kid hproj hk hs))
  | cons m path =>
    obtain ⟨n, k, rfl, hk, hu⟩ := Ty.along_resolve_cons hproj halong
    refine Ty.along_trait ?_ (ih k (mem_kids_of_lookup hk) path u hu (h.of fun _ hs => .binding hk hs))
    rw [lookup_mapKids, hk]
    rfl

theorem instantiate_projection (as : List Ty) (r : Ty) (i : NominalTy) (m : DefinitionId) :
    (Ty.projection as r i m).instantiate applied (together contract applied receiver) =
      if Owns applied as (r.resolve applied) i m then ownOutput applied receiver m
      else if as = [] then (carried (r.resolve applied) (r.instantiate applied (together contract applied receiver))
        (i.mapKids (Ty.instantiate applied (together contract applied receiver))) m).getD
          ((Ty.projection as r i m).mapKids (Ty.instantiate applied (together contract applied receiver)))
      else (Ty.projection as r i m).mapKids (Ty.instantiate applied (together contract applied receiver)) := by
  simp only [Ty.instantiate, Ty.instantiateAll_eq, Ty.instantiateNominal_eq, owns_map, List.isEmpty_iff,
    List.map_eq_nil_iff, together, if_true, Option.getD_some, Ty.mapKids]

/-- The output of an own associated type, or a projection from the applied trait. -/
theorem ownOutput_substTwice {path : List DefinitionId} {u : Ty} (howns : Owns applied [] (r.resolve applied) i m)
    (halong : (ownOutput applied (.selfType applied.declaration) m).along path = some u)
    (h : Apart contract applied receiver path (.projection [] r i m)) :
    (ownOutput applied receiver m).along path = some (substTwice contract applied receiver u) := by
  rcases ownOutput_along halong with ⟨output, hlooked, hu⟩ | ⟨hlooked, rfl, rfl⟩
  · rw [ownOutput, hlooked, (h.outputs.bound m path (.own howns) output hlooked u hu).substTwice]
    exact hu
  · have happlied : applied.mapKids (substTwice contract applied receiver) = applied :=
      (Nominal.mapKids_congr fun k hk => (h.outputs.unbound m (.own howns) hlooked k hk).substTwice).trans
        applied.mapKids_id
    have hself : substTwice contract applied receiver (.selfType applied.declaration) = receiver := by
      show (((receivers applied receiver).values (.receiver applied.declaration)).getD _).subst _ = _
      rw [receivers_receiver, if_pos rfl]
      exact h.unbound m (.own howns) hlooked
    rw [ownOutput, hlooked, substTwice_mapKids fun _ => rfl]
    simp only [Ty.mapKids, happlied, hself, List.map_nil]
    rfl

/-- Nothing is carried below the passes where nothing was. -/
theorem carried_none (hnone : Transform.embedded (i.mapKids (Ty.resolve applied)) (r.resolve applied) m = none)
    (hr : r.instantiate applied (together contract applied receiver) =
      substTwice contract applied receiver (r.resolve applied)) :
    carried (r.resolve applied) (r.instantiate applied (together contract applied receiver))
      (i.mapKids (Ty.instantiate applied (together contract applied receiver))) m = none := by
  obtain ⟨hlook, hrecv⟩ := Option.or_eq_none_iff.mp ((embedded_eq _ _ _).symm.trans hnone)
  rw [lookup_mapKids, Option.map_eq_none_iff] at hlook
  unfold carried
  rw [lookup_mapKids, hlook, hr]
  cases hrsvd : r.resolve applied with
  | trait actual =>
    rw [hrsvd, Ty.along_one] at hrecv
    rw [substTwice_mapKids fun _ => rfl]
    show ((actual.mapKids _).associatedTypes.lookup m) = none
    rw [lookup_mapKids, hrecv]
    rfl
  | _ => rfl

theorem passesAgree_projection (as : List Ty) (r : Ty) (i : NominalTy) (m : DefinitionId)
    (ih : ∀ k ∈ (Ty.projection as r i m).kids, PassesAgree contract applied receiver k) :
    PassesAgree contract applied receiver (.projection as r i m) := by
  intro path u halong h
  rw [instantiate_projection]
  rcases Ty.resolve_cases applied as r i m with ⟨rfl, howns⟩ | ⟨rfl, k, hk⟩ | ⟨rfl, hnone, k, hk⟩ |
    ⟨howns, hcarr⟩
  · rw [if_pos howns]
    rw [Ty.resolve_own howns] at halong
    exact ownOutput_substTwice howns halong h
  · have hnot : ¬ Owns applied [] (r.resolve applied) i m := fun howns => by cases howns.2.1.symm.trans hk
    rw [Ty.resolve_interface hk] at halong
    rw [if_neg hnot, if_pos rfl]
    unfold carried
    rw [lookup_mapKids, hk]
    exact ih k (by simp [Ty.kids, mem_kids_of_lookup hk]) path u halong (h.of fun _ hs => .interface hk hs)
  · have hr := ih r (by simp [Ty.kids]) (m :: path) u
      (Ty.along_append hk (by rwa [Ty.resolve_receiver hnone hk] at halong)) (h.of fun _ hs =>
        .receiver hnone hk hs)
    obtain ⟨resolved, _, hrsvd, -, -⟩ := Ty.along_cons hk
    obtain ⟨actual, k', hactl, hk', hu⟩ := Ty.along_cons hr
    have hnot : ¬ Owns applied [] (r.resolve applied) i m := fun howns => by cases howns.2.2.2.symm.trans hrsvd
    rw [if_neg hnot, if_pos rfl]
    unfold carried
    rw [lookup_mapKids, hnone, hrsvd, hactl]
    show ((actual.associatedTypes.lookup m).getD _).along path = _
    rw [hk']
    exact hu
  · rw [Ty.resolve_kept howns hcarr] at halong
    cases path with
    | cons _ _ => cases halong
    | nil =>
      have hkid : ∀ k ∈ (Ty.projection as r i m).kids, k.instantiate applied (together contract applied receiver) =
          substTwice contract applied receiver (k.resolve applied) := fun k hk =>
        Option.some.inj (ih k hk [] _ rfl (h.of fun _ hs => .kept howns hcarr hk hs))
      have hplain : (Ty.projection as r i m).mapKids (Ty.instantiate applied (together contract applied receiver)) =
          substTwice contract applied receiver u := by
        rw [← Option.some.inj halong, substTwice_mapKids fun _ => rfl]
        exact (Ty.mapKids_congr hkid).trans (Ty.mapKids_mapKids _ _ (.projection as r i m)).symm
      rw [if_neg howns]
      split
      · rename_i hnil
        rw [carried_none (hcarr hnil) (hkid r (by simp [Ty.kids]))]
        exact congrArg some hplain
      · exact congrArg some hplain

/-- Where no pass changes what an earlier one has put in, they instantiate. -/
theorem substTwice_resolve (ty : Ty) : PassesAgree contract applied receiver ty := by
  induction ty using Ty.kids_induction with
  | step ty ih =>
    cases ty with
    | selfType owner =>
      intro path u halong h
      cases path with
      | cons _ _ => cases halong
      | nil =>
        cases halong
        show some ((together contract applied receiver (.receiver owner)).getD _) =
          some ((((receivers applied receiver).values (.receiver owner)).getD (.selfType owner)).subst _)
        rw [receivers_receiver, together]
        split
        · rename_i howner
          subst howner
          exact congrArg some (h.self .self).symm
        · show _ = some (((contract.parameters applied).values (.receiver owner)).getD (.selfType owner))
          rw [parameters_values]
    | parameter owner position =>
      intro path u halong h
      cases path with
      | cons _ _ => cases halong
      | nil =>
        cases halong
        rfl
    | projection as r i m => exact passesAgree_projection as r i m ih
    | _ => exact passesAgree_other id (fun _ => rfl) ih

end Agree

/-! ## Limits -/

/-- By the values of the parts. -/
def Ty.fold {α : Type} (f : Ty → List α → α) (ty : Ty) : α :=
  f ty (ty.kids.attach.map fun k => Ty.fold f k.1)
termination_by sizeOf ty
decreasing_by exact Ty.sizeOf_kid k.2

theorem Ty.fold_eq {α : Type} (f : Ty → List α → α) (ty : Ty) : ty.fold f = f ty (ty.kids.map (Ty.fold f)) := by
  rw [Ty.fold, map_attach_eq_pmap, pmap_eq_map]

section Limits

variable (applied : NominalTy)

/-- The steps over a settled type are at most two a node, where the interface of an own associated type is
visited once more. -/
def Ty.settledSteps : Ty → Nat :=
  Ty.fold fun ty below => 2 + below.sum +
    match ty with
    | .projection as r i m => if Owns applied as r i m then 1 + below.sum else 0
    | _ => 0

/-- The types that are visited once more where a projection is resolved. -/
def Ty.again : Ty → List Ty
  | .projection as r i m =>
    if Owns applied as (r.resolve applied) i m then
      match applied.associatedTypes.lookup m with
      | some output => [output]
      | none => applied.kids
    else if as = [] then (Transform.embedded (i.mapKids (Ty.resolve applied)) (r.resolve applied) m).toList
    else []
  | _ => []

/-- The steps of the pass that resolves. -/
def Ty.resolveSteps : Ty → Nat :=
  Ty.fold fun ty below => 3 + below.sum + ((ty.again applied).map (Ty.settledSteps applied)).sum

/-- What the pass visits is within its limits, where the type itself is at `depth`, and what it visits once
more is settled. -/
inductive Ty.Fits : Nat → Ty → Prop
  | node {depth : Nat} {ty : Ty} : depth ≤ maxTypeDepth → ty.kids.length ≤ maxTypeNodes →
      (ty.again applied).length ≤ maxTypeNodes → (∀ k ∈ ty.kids, Ty.Fits (depth + 1) k) →
      (∀ k ∈ ty.again applied, k.Settled applied ∧ k.Within (depth + 1) ∧ k.nodes ≤ maxTypeNodes) → Ty.Fits depth ty

end Limits

namespace Transform

section Parts

variable {t : Transform} {visit : Ty → TransformM Ty} {depth : Nat} {f : Ty → Ty} {cost : Ty → Nat}
  (hcanc : t.cancel = false) (hdep : depth ≤ maxTypeDepth)

include hcanc hdep

theorem rebuild_other_affords (hty : ¬ ty.IsProjection) (hlen : ty.kids.length ≤ maxTypeNodes)
    (h : ∀ k ∈ ty.kids, Affords (visit k) (f k) (cost k)) :
    Affords (t.rebuild visit depth ty) (ty.mapKids f) (1 + (ty.kids.map cost).sum) := by
  have hplain := @rebuild_affords { t with outputs := none, lookup := none } _ depth _ _ rfl rfl hcanc hdep _
    hlen h
  cases ty with
  | projection => exact absurd trivial hty
  | _ => exact hplain

theorem rebuild_projection_affords
    (hlen : (Ty.projection as r i m).kids.length ≤ maxTypeNodes)
    (h : ∀ k ∈ (Ty.projection as r i m).kids, Affords (visit k) (f k) (cost k)) {result : Ty} {n : Nat}
    (hproj : Affords (t.projection visit depth (f r) (i.mapKids f) m (as.map f)) result n) :
    Affords (t.rebuild visit depth (.projection as r i m)) result
      (1 + ((Ty.projection as r i m).kids.map cost).sum + n) := by
  simp only [Ty.kids, mem_cons, mem_append] at h
  simp only [Ty.kids, length_cons, length_append] at hlen
  simp only [Ty.kids, map_cons, map_append, sum_cons, sum_append]
  refine (Affords.bind (h r (.inl rfl)) (Affords.bind (nominal_affords hcanc hdep (by omega)
    fun k hk => h k (.inr (.inl hk))) (Affords.bind (many_affords (by omega)
    fun k hk => h k (.inr (.inr hk))) hproj))).mono (by omega)

end Parts

section Resolve

variable {t : Transform} {applied : NominalTy} (houts : t.outputs = some (applied, .selfType applied.declaration))
  (hlook : t.lookup = none) (hrepl : ∀ ty, t.replacement ty = none) (hcanc : t.cancel = false)

include houts hlook hrepl hcanc

theorem visit_settled_affords (fuel : Nat) : ∀ depth replace ty, depth + fuel = maxTypeDepth + 1 →
    ty.Settled applied → ty.Within depth → ty.nodes ≤ maxTypeNodes →
    Affords (t.visit fuel depth replace ty) ty (ty.settledSteps applied) := by
  induction fuel with
  | zero =>
    rintro depth replace ty hfuel - ⟨hdep, -⟩ -
    omega
  | succ fuel ih =>
    rintro depth replace ty hfuel hsett ⟨hdep, hkids⟩ hnds
    rw [visit_kept fun _ => hrepl ty, Ty.settledSteps, Ty.fold_eq]
    rw [ty.nodes_eq] at hnds
    have hlen : ty.kids.length ≤ maxTypeNodes := by
      have := length_le_nodes ty.kids
      omega
    have hkid : ∀ k ∈ ty.kids, Affords (t.visit fuel (depth + 1) replace k) k (k.settledSteps applied) := by
      intro k hk
      have hle : k.nodes ≤ (ty.kids.map Ty.nodes).sum :=
        single_le_sum (fun _ _ => Nat.zero_le _) _ (mem_map_of_mem hk)
      exact ih _ _ k (by omega) (hsett.kid hk) (hkids k hk) (by omega)
    cases hsett with
    | other hty _ =>
      have hrebuild := rebuild_other_affords (f := fun k => k) hcanc hdep hty hlen hkid
      rw [Ty.mapKids_id] at hrebuild
      exact (Affords.bind (step_affords hcanc hdep) hrebuild).mono (by unfold Ty.settledSteps; omega)
    | @projection as r i m hcarr howns _ =>
      by_cases howned : Owns applied as r i m
      · obtain ⟨hnone, rfl⟩ := howns howned
        obtain rfl : as = [] := howned.1
        have hnom := @nominal_affords t _ depth (fun k => k) _ hcanc hdep i (by
          simp only [Ty.kids, length_cons, append_nil] at hlen
          omega) fun k hk => hkid k (by simp [Ty.kids, hk])
        rw [Nominal.mapKids_id] at hnom
        have hproj : Affords (t.projection (t.visit fuel (depth + 1) replace) depth r
            (i.mapKids fun k => k) m ([].map fun k => k)) (.projection [] r i m)
            (1 + (i.kids.map (Ty.settledSteps i)).sum) := by
          rw [Nominal.mapKids_id, map_id', projection_own houts hlook howned, hnone]
          exact .returning hnom
        refine (Affords.bind (step_affords hcanc hdep)
          (rebuild_projection_affords hcanc hdep hlen hkid hproj)).mono ?_
        dsimp only
        rw [if_pos howned]
        simp only [Ty.kids, append_nil, map_cons, sum_cons, Ty.settledSteps]
        omega
      · have hproj : Affords (t.projection (t.visit fuel (depth + 1) replace) depth r
            (i.mapKids fun k => k) m (as.map fun k => k)) (.projection as r i m) 0 := by
          rw [Nominal.mapKids_id, map_id', projection_kept houts hlook hcarr howned]
          exact .pure
        refine (Affords.bind (step_affords hcanc hdep)
          (rebuild_projection_affords hcanc hdep hlen hkid hproj)).mono ?_
        unfold Ty.settledSteps
        omega

/-- Within the limits the pass returns the resolved type. -/
theorem visit_resolve_affords (fuel : Nat) : ∀ depth ty, depth + fuel = maxTypeDepth + 1 → ty.Fits applied depth →
    Affords (t.visit fuel depth true ty) (ty.resolve applied) (ty.resolveSteps applied) := by
  induction fuel with
  | zero =>
    rintro depth ty hfuel ⟨hdep, -⟩
    omega
  | succ fuel ih =>
    rintro depth ty hfuel ⟨hdep, hlen, hcnt, hkids, hagain⟩
    rw [visit_kept fun _ => hrepl ty, Ty.resolveSteps, Ty.fold_eq]
    have hkid : ∀ k ∈ ty.kids, Affords (t.visit fuel (depth + 1) true k) (k.resolve applied)
        (k.resolveSteps applied) := fun k hk => ih _ k (by omega) (hkids k hk)
    have hout : ∀ k ∈ ty.again applied, Affords (t.visit fuel (depth + 1) true k) k (k.settledSteps applied) := by
      intro k hk
      obtain ⟨hsett, hwith, hnds⟩ := hagain k hk
      exact visit_settled_affords houts hlook hrepl hcanc fuel _ _ k (by omega) hsett hwith hnds
    by_cases hproj : ty.IsProjection
    · cases ty with
      | projection as r i m =>
        have hrsvd : Affords (t.projection (t.visit fuel (depth + 1) true) depth (r.resolve applied)
            (i.mapKids (Ty.resolve applied)) m (as.map (Ty.resolve applied)))
            ((Ty.projection as r i m).resolve applied)
            (1 + (((Ty.projection as r i m).again applied).map (Ty.settledSteps applied)).sum) := by
          have hcarr : ∀ {output : Ty}, as = [] → ¬ Owns applied as (r.resolve applied) i m →
              Transform.embedded (i.mapKids (Ty.resolve applied)) (r.resolve applied) m = some output →
              Affords (t.projection (t.visit fuel (depth + 1) true) depth (r.resolve applied)
                (i.mapKids (Ty.resolve applied)) m (as.map (Ty.resolve applied))) output
                (1 + (((Ty.projection as r i m).again applied).map (Ty.settledSteps applied)).sum) := by
            rintro output rfl howns hemb
            have hlist : (Ty.projection [] r i m).again applied = [output] := by
              refine (if_neg howns).trans ?_
              rw [if_pos rfl, hemb]
              rfl
            rw [map_nil, projection_carried houts hemb, hlist]
            exact (hout output (by rw [hlist]; exact mem_cons_self)).mono (by simp)
          rcases Ty.resolve_cases applied as r i m with ⟨rfl, howns⟩ | ⟨rfl, k, hk⟩ | ⟨rfl, hnone, k, hk⟩ |
            ⟨howns, hnone⟩
          · have hlist : (Ty.projection [] r i m).again applied =
                match applied.associatedTypes.lookup m with
                | some output => [output]
                | none => applied.kids := if_pos howns
            rw [projection_own houts hlook ((owns_map _ _).mpr howns), Ty.resolve_own howns, ownOutput]
            rw [hlist] at hcnt hout ⊢
            cases hlooked : applied.associatedTypes.lookup m with
            | some output =>
              rw [hlooked] at hout
              exact (hout output mem_cons_self).mono (by simp)
            | none =>
              rw [hlooked] at hcnt hout
              have hnom := @nominal_affords t _ depth (fun k => k) _ hcanc hdep _ hcnt hout
              rw [Nominal.mapKids_id] at hnom
              rw [howns.2.2.2]
              exact .returning hnom
          · rw [Ty.resolve_interface hk]
            refine hcarr rfl (fun howns => nomatch howns.2.1.symm.trans hk) ?_
            rw [embedded_eq, lookup_mapKids, hk]
            rfl
          · rw [Ty.resolve_receiver hnone hk]
            refine hcarr rfl (fun howns => ?_) ?_
            · rw [howns.2.2.2] at hk
              cases hk
            · rw [embedded_eq, lookup_mapKids, hnone, hk]
              rfl
          · rw [Ty.resolve_kept howns hnone, projection_kept houts hlook
              (fun hnil => hnone (map_eq_nil_iff.mp hnil)) fun h => howns ((owns_map _ _).mp h)]
            exact Affords.pure.mono (Nat.zero_le _)
        refine (Affords.bind (step_affords hcanc hdep)
          (rebuild_projection_affords hcanc hdep hlen hkid hrsvd)).mono ?_
        unfold Ty.resolveSteps
        omega
      | _ => exact absurd hproj id
    · rw [Ty.resolve_other applied hproj]
      exact (Affords.bind (step_affords hcanc hdep) (rebuild_other_affords hcanc hdep hproj hlen
        hkid)).mono (by unfold Ty.resolveSteps; omega)

end Resolve

end Transform

/-! ## One supertrait -/

section Inherited

variable {contract : TraitDef} {applied parent result : NominalTy} {receiver : Ty}

theorem values_empty (v : TypeVariable) : TypeSubstitution.empty.values v = none := by
  cases v <;> rfl

theorem subst_empty (ty : Ty) : ty.subst TypeSubstitution.empty.values = ty :=
  ty.subst_self fun v _ => values_empty v

theorem apply_empty {ty result : Ty} (h : TypeSubstitution.empty.apply ty false = .ok result) : result = ty := by
  obtain ⟨rfl, -⟩ := TypeSubstitution.apply_iff.mp h
  exact subst_empty ty

theorem applyNominal_empty {n result : NominalTy} (h : TypeSubstitution.empty.applyNominal n false = .ok result) :
    result = n := by
  unfold TypeSubstitution.applyNominal at h
  obtain ⟨⟨value, remaining⟩, hrun, hlims⟩ := bind_ok.mp h
  have hensures : Ensures ((TypeSubstitution.empty.transform false).nominal
      ((TypeSubstitution.empty.transform false).visit (maxTypeDepth - 1) 2 true) 1 n) (· = n.mapKids fun k => k) := by
    refine Transform.nominal_ensures fun k _ => (Transform.visit_true rfl rfl _ _ k).mono fun r hr => ?_
    rw [hr, TypeSubstitution.values_transform, subst_empty]
  have hval := hensures _ _ _ hrun
  dsimp only at hlims hval
  rw [Nominal.mapKids_id] at hval
  split at hlims
  · rw [← hval]
    exact (Except.ok.inj hlims).symm
  · cases hlims

/-- A trait stays an application of the same declaration. -/
theorem resolveAssociatedOutputs_trait
    (h : resolveAssociatedOutputs (.trait n) applied (.selfType applied.declaration) false = .ok ty) :
    ∃ n', ty = .trait n' ∧ n'.declaration = n.declaration := by
  unfold resolveAssociatedOutputs Transform.run at h
  obtain ⟨⟨value, remaining⟩, hvis, hlims⟩ := bind_ok.mp h
  have hensures : Ensures (Transform.visit ⟨.empty, some (applied, .selfType applied.declaration), none, none, false⟩
      maxTypeDepth 1 true (.trait n)) (fun ty => ∃ n', ty = .trait n' ∧ n'.declaration = n.declaration) := by
    unfold maxTypeDepth
    rw [Transform.visit_kept fun _ => rfl]
    refine Ensures.seq ?_
    exact Ensures.bind (Transform.nominal_lookup (m := n.declaration) (P := fun _ => True) fun _ _ => .any)
      fun n' hn' => Ensures.pure ⟨n', rfl, hn'.1⟩
  have hval := hensures _ _ _ hvis
  dsimp only at hlims hval
  split at hlims
  · rw [← Except.ok.inj hlims]
    exact hval
  · cases hlims

/-- The passes of a supertrait that was inherited. -/
theorem inherited_ok (h : inherited receiver false contract applied parent = .ok result) :
    result.declaration = parent.declaration ∧ ∃ resolved,
      resolveAssociatedOutputs (.trait parent) applied (.selfType applied.declaration) false = .ok resolved ∧
      Ty.trait result = substTwice contract applied receiver resolved := by
  obtain ⟨first, hfst, h⟩ := bind_ok.mp h
  obtain ⟨resolved, hrsvd, h⟩ := bind_ok.mp h
  obtain ⟨once, honce, h⟩ := bind_ok.mp h
  obtain ⟨twice, htwice, h⟩ := bind_ok.mp h
  rw [applyNominal_empty hfst] at hrsvd
  obtain ⟨rfl, -⟩ := TypeSubstitution.apply_iff.mp honce
  obtain ⟨rfl, -⟩ := TypeSubstitution.apply_iff.mp htwice
  obtain ⟨n, rfl, hdecl⟩ := resolveAssociatedOutputs_trait hrsvd
  have htrait : Ty.trait result = substTwice contract applied receiver (.trait n) :=
    congrArg Ty.trait (Except.ok.inj h).symm
  refine ⟨?_, _, hrsvd, htrait⟩
  rw [substTwice_mapKids fun _ => rfl] at htrait
  rw [Ty.trait.inj htrait, ← hdecl]
  rfl

/-- Where no pass changes what an earlier one has put in, the supertrait is the declared one with everything
put in at once. -/
theorem inherited_eq (h : inherited receiver false contract applied parent = .ok result)
    (hapart : Apart contract applied receiver [] (.trait parent)) :
    Ty.trait result = (Ty.trait parent).instantiate applied (together contract applied receiver) := by
  obtain ⟨-, resolved, hrsvd, hres⟩ := inherited_ok h
  rw [hres, resolveAssociatedOutputs_ok hapart.settled hrsvd]
  exact (Option.some.inj (substTwice_resolve _ [] _ rfl hapart)).symm

theorem applyNominal_limits (h : (Ty.trait n).withinWireLimits = true) :
    TypeSubstitution.empty.applyNominal n false = .ok n := by
  obtain ⟨hnds, ⟨hdep, hkids⟩⟩ := validate_ok (withinWireLimits_iff.mp h)
  rw [Ty.nodes_eq] at hnds
  have hkid : ∀ k ∈ n.kids, Affords ((TypeSubstitution.empty.transform false).visit (maxTypeDepth - 1) 2 true k) k
      (3 * k.nodes) := by
    intro k hk
    have hle : k.nodes ≤ (n.kids.map Ty.nodes).sum :=
      single_le_sum (fun _ _ => Nat.zero_le _) _ (mem_map_of_mem hk)
    have hvis := Transform.visit_true_affords (t := TypeSubstitution.empty.transform false) rfl rfl rfl
      (maxTypeDepth - 1) 2 k (by decide)
    rw [TypeSubstitution.values_transform, subst_empty] at hvis
    exact hvis (hkids k hk) (Nat.le_trans hle (Nat.le_trans (Nat.le_add_left _ _) hnds))
  have hlen := length_le_nodes n.kids
  have hnom := Transform.nominal_affords (t := TypeSubstitution.empty.transform false) (f := fun k => k) rfl hdep
    (Nat.le_trans hlen (Nat.le_trans (Nat.le_add_left _ _) hnds)) hkid
  rw [Nominal.mapKids_id, sum_map_mul_left] at hnom
  obtain ⟨s', hrun, -⟩ := hnom Transform.maxSteps (by
    unfold Transform.maxSteps
    change 1 + (n.kids.map Ty.nodes).sum ≤ _ at hnds
    omega)
  unfold TypeSubstitution.applyNominal
  dsimp only
  rw [hrun, ok_bind]
  exact if_pos h

/-- What the passes over a declared supertrait take and give is within their limits. -/
structure WithinPasses (receiver : Ty) (contract : TraitDef) (applied parent : NominalTy) : Prop where
  declared : (Ty.trait parent).withinWireLimits = true
  fits : (Ty.trait parent).Fits applied 1
  steps : (Ty.trait parent).resolveSteps applied ≤ Transform.maxSteps
  resolved : ((Ty.trait parent).resolve applied).withinWireLimits = true
  received : (((Ty.trait parent).resolve applied).subst (receivers applied receiver).values).withinWireLimits = true
  instantiated : (substTwice contract applied receiver ((Ty.trait parent).resolve applied)).withinWireLimits = true

theorem WithinPasses.returns (h : WithinPasses receiver contract applied parent) :
    ∃ child, inherited receiver false contract applied parent = .ok child := by
  have hrsvd : resolveAssociatedOutputs (.trait parent) applied (.selfType applied.declaration) false =
      .ok ((Ty.trait parent).resolve applied) := by
    obtain ⟨s', hrun, -⟩ := Transform.visit_resolve_affords
      (t := ⟨.empty, some (applied, .selfType applied.declaration), none, none, false⟩) rfl rfl
      (fun ty => by cases ty <;> rfl) rfl maxTypeDepth 1 _ rfl h.fits _ h.steps
    unfold resolveAssociatedOutputs Transform.run
    rw [hrun, ok_bind]
    exact if_pos h.resolved
  unfold inherited
  rw [applyNominal_limits h.declared, ok_bind, hrsvd, ok_bind, TypeSubstitution.apply_iff.mpr ⟨rfl, h.received⟩,
    ok_bind, TypeSubstitution.apply_iff.mpr ⟨rfl, h.instantiated⟩, ok_bind, Ty.resolve_other applied id]
  exact ⟨_, rfl⟩

end Inherited

end Kagari
