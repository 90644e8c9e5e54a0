import Kagari.Lib.Branching
import Kagari.Types.Ty

/-!
# HIR types

`kagari-hir/src/types.rs`: `TypeId`, the semantic types of analysis with their recovery states, and
the traversals over them. A binder is its owner and position; its name takes no part in equality and is
left out. The bindings of a nominal type are the entry list of a `BTreeMap`.

A worklist is a stack whose top is the head of the list. `substituteOnce` writes through references
into the type that it builds: a reference is the path of child positions to the place.
-/

namespace Kagari

open Lib List

/-! ## Nominal types -/

namespace Nominal

variable {T : Type}

/-- The arguments, then the bound types in key order. -/
def children (nominal : Nominal T) : List T :=
  nominal.arguments ++ nominal.associatedTypes.map Prod.snd

def withChildren (nominal : Nominal T) (types : List T) : Nominal T :=
  { nominal with
    arguments := types.take nominal.arguments.length
    associatedTypes :=
      (nominal.associatedTypes.map Prod.fst).zip (types.drop nominal.arguments.length) }

def mapArguments (nominal : Nominal T) (f : T → T) : Nominal T :=
  { nominal with
    associatedTypes := nominal.associatedTypes.map fun binding => (binding.1, f binding.2)
    arguments := nominal.arguments.map f }

variable (nominal : Nominal T) {types : List T}

theorem children_withChildren (h : types.length = nominal.children.length) :
    (nominal.withChildren types).children = types := by
  simp only [children, length_append, length_map] at h
  rw [children, withChildren, map_snd_zip (by simp; omega), take_append_drop]

theorem withChildren_children : nominal.withChildren nominal.children = nominal := by
  obtain ⟨declaration, arguments, bindings⟩ := nominal
  simp [withChildren, children, zip_map']

theorem withChildren_withChildren (types' : List T) (h : types.length = nominal.children.length) :
    (nominal.withChildren types).withChildren types' = nominal.withChildren types' := by
  simp only [children, length_append, length_map] at h
  have hargs : (types.take nominal.arguments.length).length = nominal.arguments.length := by
    simp only [length_take]
    omega
  simp only [withChildren, hargs]
  rw [map_fst_zip (by simp; omega)]

theorem mapArguments_eq (f : T → T) :
    nominal.mapArguments f = nominal.withChildren (nominal.children.map f) := by
  obtain ⟨declaration, arguments, bindings⟩ := nominal
  simp [mapArguments, withChildren, children, zip_map']

end Nominal

variable (ty : TypeId)

namespace Hir

structure GenericParameterType where
  owner : DefinitionId
  position : Nat
deriving DecidableEq

inductive TypeId where
  | reference (target : TypeId) (access : ReferenceAccess)
  | inference (index : Nat)
  | unknown
  | error
  | builtin (ty : BuiltinType)
  | tuple (items : List TypeId)
  | function (params : List TypeId) (result : TypeId)
  | iter (element : TypeId)
  | range (element : TypeId) (kind : RangeKind)
  | array (element : TypeId)
  | map (key value : TypeId) (access : CollectionAccess)
  | set (element : TypeId) (access : CollectionAccess)
  | nativeObject (nominal : Nominal TypeId)
  | struct (nominal : Nominal TypeId)
  | enum (nominal : Nominal TypeId)
  | trait (nominal : Nominal TypeId)
  | host (id : DefinitionId)
  | generic (parameter : GenericParameterType)
  | projection (arguments : List TypeId) (receiver : TypeId) (interface : Nominal TypeId)
      (member : DefinitionId)
  | selfType (owner : DefinitionId)

abbrev NominalType := Nominal TypeId

namespace TypeId

/-- The types directly below a type, in the order of its fields. -/
def children : TypeId → List TypeId
  | .reference target _ => [target]
  | .tuple items => items
  | .function params result => params ++ [result]
  | .iter element => [element]
  | .range element _ => [element]
  | .array element => [element]
  | .map key value _ => [key, value]
  | .set element _ => [element]
  | .nativeObject nominal => nominal.children
  | .struct nominal => nominal.children
  | .enum nominal => nominal.children
  | .trait nominal => nominal.children
  | .projection arguments receiver interface _ =>
    arguments ++ receiver :: interface.children
  | .inference _ | .unknown | .error | .builtin _ | .host _ | .generic _ | .selfType _ => []

/-- The type over other children; a child that is not given is unknown. -/
def withChildren (ty : TypeId) (types : List TypeId) : TypeId :=
  match ty with
  | .reference _ access => .reference (types.getD 0 .unknown) access
  | .tuple _ => .tuple types
  | .function params _ => .function (types.take params.length) (types.getD params.length .unknown)
  | .iter _ => .iter (types.getD 0 .unknown)
  | .range _ kind => .range (types.getD 0 .unknown) kind
  | .array _ => .array (types.getD 0 .unknown)
  | .map _ _ access => .map (types.getD 0 .unknown) (types.getD 1 .unknown) access
  | .set _ access => .set (types.getD 0 .unknown) access
  | .nativeObject nominal => .nativeObject (nominal.withChildren types)
  | .struct nominal => .struct (nominal.withChildren types)
  | .enum nominal => .enum (nominal.withChildren types)
  | .trait nominal => .trait (nominal.withChildren types)
  | .projection arguments _ interface member =>
    .projection (types.take arguments.length) (types.getD arguments.length .unknown)
      (interface.withChildren (types.drop (arguments.length + 1))) member
  | ty => ty

def mapChildren (ty : TypeId) (f : TypeId → TypeId) : TypeId :=
  match ty with
  | .reference target access => .reference (f target) access
  | .tuple items => .tuple (items.map f)
  | .iter element => .iter (f element)
  | .range element kind => .range (f element) kind
  | .array element => .array (f element)
  | .set element access => .set (f element) access
  | .map key value access => .map (f key) (f value) access
  | .function params result => .function (params.map f) (f result)
  | .nativeObject nominal => .nativeObject (nominal.mapArguments f)
  | .struct nominal => .struct (nominal.mapArguments f)
  | .enum nominal => .enum (nominal.mapArguments f)
  | .trait nominal => .trait (nominal.mapArguments f)
  | .projection arguments receiver interface member =>
    .projection (arguments.map f) (f receiver) (interface.mapArguments f) member
  | ty => ty

/-! ## Children of a type -/

theorem children_withChildren (types : List TypeId)
    (h : types.length = ty.children.length) : (ty.withChildren types).children = types := by
  cases ty with
  | nativeObject nominal | struct nominal | enum nominal | trait nominal =>
    exact nominal.children_withChildren h
  | tuple items => rfl
  | reference target access | iter element | range element kind | array element | set element access =>
    obtain ⟨target, rfl⟩ := length_eq_one_iff.mp h
    rfl
  | map key value access =>
    obtain ⟨key, value, rfl⟩ := length_eq_two.mp h
    rfl
  | function params result =>
    simp only [children, length_append, length_singleton] at h
    obtain rfl | ⟨front, last, rfl⟩ := eq_nil_or_concat' types
    · simp at h
    · simp only [length_append, length_singleton, Nat.add_right_cancel_iff] at h
      simp [withChildren, children, ← h]
  | projection arguments receiver interface member =>
    simp only [children, length_append, length_cons] at h
    obtain ⟨front, back, rfl, hfront⟩ : ∃ front back, types = front ++ back ∧
        front.length = arguments.length :=
      ⟨_, _, (take_append_drop arguments.length types).symm, by simp; omega⟩
    cases back with
    | nil => simp at h; omega
    | cons first back =>
      simp only [length_append, length_cons] at h
      have hback : back.length = interface.children.length := by omega
      simp [withChildren, children, ← hfront, Nominal.children_withChildren interface hback]
  | _ => exact (length_eq_zero_iff.mp h).symm

theorem withChildren_children : ty.withChildren ty.children = ty := by
  cases ty with
  | nativeObject nominal | struct nominal | enum nominal | trait nominal =>
    exact congrArg _ nominal.withChildren_children
  | function params result => simp [withChildren, children]
  | projection arguments receiver interface member =>
    simp [withChildren, children, Nominal.withChildren_children]
  | _ => rfl

theorem withChildren_withChildren (types types' : List TypeId)
    (h : types.length = ty.children.length) :
    (ty.withChildren types).withChildren types' = ty.withChildren types' := by
  cases ty with
  | nativeObject nominal | struct nominal | enum nominal | trait nominal =>
    exact congrArg _ (nominal.withChildren_withChildren types' h)
  | function params result =>
    simp only [children, length_append, length_singleton] at h
    simp [withChildren, h]
  | projection arguments receiver interface member =>
    simp only [children, length_append, length_cons] at h
    have hiface : (types.drop (arguments.length + 1)).length = interface.children.length := by
      rw [length_drop]
      omega
    simp [withChildren, h, interface.withChildren_withChildren _ hiface]
  | _ => rfl

theorem mapChildren_eq (f : TypeId → TypeId) :
    ty.mapChildren f = ty.withChildren (ty.children.map f) := by
  cases ty with
  | nativeObject nominal | struct nominal | enum nominal | trait nominal =>
    exact congrArg _ (nominal.mapArguments_eq f)
  | function params result => simp [mapChildren, withChildren, children]
  | projection arguments receiver interface member =>
    have hdrop : (arguments.map f ++ f receiver :: interface.children.map f).drop
        (arguments.length + 1) = interface.children.map f := by
      rw [drop_append, drop_eq_nil_of_le (by simp), length_map]
      simp
    simp [mapChildren, withChildren, children, interface.mapArguments_eq f, hdrop]
  | _ => rfl

theorem sum_sizeOf_lt (types : List TypeId) : (types.map sizeOf).sum < sizeOf types := by
  induction types with
  | nil => simp
  | cons ty types ih =>
    simp only [map_cons, sum_cons, List.cons.sizeOf_spec]
    omega

theorem sum_sizeOf_bindings (bindings : List (DefinitionId × TypeId)) :
    ((bindings.map Prod.snd).map sizeOf).sum < sizeOf bindings := by
  induction bindings with
  | nil => simp
  | cons binding bindings ih =>
    obtain ⟨id, ty⟩ := binding
    simp only [map_cons, sum_cons, List.cons.sizeOf_spec, Prod.mk.sizeOf_spec]
    omega

theorem sum_sizeOf_nominal (nominal : NominalType) :
    (nominal.children.map sizeOf).sum < sizeOf nominal := by
  obtain ⟨declaration, arguments, bindings⟩ := nominal
  have hargs := sum_sizeOf_lt arguments
  have hbnds := sum_sizeOf_bindings bindings
  simp only [Nominal.children, map_append, sum_append, Nominal.mk.sizeOf_spec]
  omega

theorem sum_sizeOf_children : (ty.children.map sizeOf).sum < sizeOf ty := by
  cases ty with
  | nativeObject nominal | struct nominal | enum nominal | trait nominal =>
    have := sum_sizeOf_nominal nominal
    simp only [children, nativeObject.sizeOf_spec, struct.sizeOf_spec, enum.sizeOf_spec,
      trait.sizeOf_spec]
    omega
  | tuple items =>
    have := sum_sizeOf_lt items
    simp only [children, tuple.sizeOf_spec]
    omega
  | function params result =>
    have := sum_sizeOf_lt params
    simp only [children, function.sizeOf_spec, map_append, sum_append, map_singleton,
      sum_singleton]
    omega
  | projection arguments receiver interface member =>
    have hargs := sum_sizeOf_lt arguments
    have hiface := sum_sizeOf_nominal interface
    simp only [children, projection.sizeOf_spec, map_append, sum_append, map_cons,
      sum_cons]
    omega
  | _ => simp [children] <;> omega

instance : Branching TypeId where
  children := children
  withChildren := withChildren
  children_withChildren := children_withChildren
  withChildren_children := withChildren_children
  withChildren_withChildren := withChildren_withChildren
  weighted := ⟨sizeOf, sum_sizeOf_children⟩

end TypeId

end Hir

end Kagari
