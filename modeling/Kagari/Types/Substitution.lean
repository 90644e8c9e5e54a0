import Kagari.Lib.Checked
import Kagari.Types.WireRoundTrip

/-!
# Substitution

`kagari-types/src/ty/substitution.rs`: bounded substitution over types.

- `TypeSubstitution`: types for parameters and for receivers
- `Transform`: the one traversal behind `apply` and `resolveAssociatedOutputs`; its state is the number of
  steps left
- `Ty.subst`: simultaneous substitution, which says what `apply` is for
- `TypeSubstitution.apply_exact`: what `apply` returns
-/

namespace Kagari

open Lib List

/-- Types for the parameters of owners and for their receivers. -/
structure TypeSubstitution where
  parameters : DefinitionId → Nat → Option Ty
  receivers : DefinitionId → Option Ty

namespace TypeSubstitution

def empty : TypeSubstitution := ⟨fun _ _ => none, fun _ => none⟩

def bind (substitution : TypeSubstitution) (owner : DefinitionId) (position : Nat) (value : Ty) :
    TypeSubstitution :=
  { substitution with
    parameters := fun o p => if o = owner ∧ p = position then some value
      else substitution.parameters o p }

def bindReceiver (substitution : TypeSubstitution) (owner : DefinitionId) (value : Ty) :
    TypeSubstitution :=
  { substitution with
    receivers := fun o => if o = owner then some value else substitution.receivers o }

def parameter (substitution : TypeSubstitution) (owner : DefinitionId) (position : Nat) : Option Ty :=
  substitution.parameters owner position

def replacement (substitution : TypeSubstitution) : Ty → Option Ty
  | .parameter owner position => substitution.parameters owner position
  | .selfType owner => substitution.receivers owner
  | _ => none

end TypeSubstitution

/-! ## The traversal -/

/-- The computations of one traversal, over the steps it may still take. -/
abbrev TransformM := StateT Nat (Except TypeTransformError)

/-- The output of a projection under a caller's contracts, if it has one. -/
abbrev ProjectionLookup :=
  NominalTy → Ty → DefinitionId → List Ty → Except TypeTransformError (Option Ty)

structure Transform where
  substitution : TypeSubstitution
  outputs : Option (NominalTy × Ty)
  lookup : Option ProjectionLookup
  parameterLookup : Option (DefinitionId → Nat → Option Ty)
  cancel : CancellationToken

variable {t : Transform} {ty : Ty}

namespace Transform

def step (t : Transform) (depth : Nat) : TransformM Unit := do
  if t.cancel then throw .cancelled
  else
    let remaining ← get
    if depth > maxTypeDepth ∨ remaining = 0 then throw .limitExceeded
    else set (remaining - 1)

/-- What stands for a type in this traversal. -/
def replacement (t : Transform) : Ty → Option Ty
  | .parameter owner position =>
    match t.parameterLookup with
    | some lookup => lookup owner position
    | none => t.substitution.replacement (.parameter owner position)
  | ty => t.substitution.replacement ty

section Children

variable (t : Transform) (visit : Ty → TransformM Ty) (depth : Nat)

/-- The types of a list, one after the other; `visit` is the traversal one level below. -/
def many (types : List Ty) : TransformM (List Ty) :=
  if types.length > maxTypeNodes then throw .limitExceeded
  else types.mapM visit

def nominal (ty : NominalTy) : TransformM NominalTy := do
  t.step depth
  if ty.associatedTypes.length > maxTypeNodes then throw .limitExceeded
  else
    let arguments ← many visit ty.arguments
    -- the keys stay, so the entries are collected in the order they have
    let associatedTypes ← ty.associatedTypes.mapM fun binding => do
      let value ← visit binding.2
      return (binding.1, value)
    return ⟨ty.declaration, arguments, associatedTypes⟩

/-- An output that the projection carries itself: bound in its interface or in its receiver. -/
def embedded (interface : NominalTy) (receiver : Ty) (member : DefinitionId) : Option Ty :=
  (interface.associatedTypes.lookup member).or
    (match receiver with
      | .trait actual => actual.associatedTypes.lookup member
      | _ => none)

/-- The interface whose outputs the traversal resolves, where it is the projection's. -/
def resolved (interface : NominalTy) (receiver : Ty) : Option NominalTy :=
  match t.outputs with
  | some (outputs, owner) =>
    if interface.declaration = outputs.declaration ∧ receiver = owner then some outputs else none
  | none => none

/-- A projection whose parts are transformed. -/
def projection (receiver : Ty) (interface : NominalTy) (member : DefinitionId) (arguments : List Ty) :
    TransformM Ty :=
  if t.outputs.isSome ∨ t.lookup.isSome then do
    let own := if arguments.isEmpty then t.resolved interface receiver else none
    let found := if arguments.isEmpty then (embedded interface receiver member).or
      (own.bind fun outputs => outputs.associatedTypes.lookup member) else none
    match found with
    | some output => visit output
    | none => do
      let interface ← match own with
        | some outputs => t.nominal visit depth outputs
        | none => pure interface
      match t.lookup with
      | some lookup => do
        match ← (liftM (lookup interface receiver member arguments) : TransformM (Option Ty)) with
        | some output => visit output
        | none => return .projection arguments receiver interface member
      | none => return .projection arguments receiver interface member
  else return .projection arguments receiver interface member

/-- The type over its transformed children. -/
def rebuild : Ty → TransformM Ty
  | .reference target access => return .reference (← visit target) access
  | .builtin kind => return .builtin kind
  | .host id => return .host id
  | .selfType id => return .selfType id
  | .parameter owner position => return .parameter owner position
  | .tuple types => return .tuple (← many visit types)
  | .function params result => do
    let params ← many visit params
    let result ← visit result
    return .function params result
  | .iter ty => return .iter (← visit ty)
  | .range ty kind => return .range (← visit ty) kind
  | .array ty => return .array (← visit ty)
  | .set ty access => return .set (← visit ty) access
  | .map key value access => do
    let key ← visit key
    let value ← visit value
    return .map key value access
  | .struct ty => return .struct (← t.nominal visit depth ty)
  | .nativeObject ty => return .nativeObject (← t.nominal visit depth ty)
  | .enum ty => return .enum (← t.nominal visit depth ty)
  | .trait ty => return .trait (← t.nominal visit depth ty)
  | .projection arguments receiver interface member => do
    let receiver ← visit receiver
    let interface ← t.nominal visit depth interface
    let arguments ← many visit arguments
    t.projection visit depth receiver interface member arguments

end Children

/-- Transform a type at a depth. `fuel` is the number of levels below the depth limit, so without
any the step is refused. A replacement is transformed at the same depth, and nothing in it is
replaced (`visit_replaced`). -/
def visit (t : Transform) : Nat → Nat → Bool → Ty → TransformM Ty
  | 0, depth, _, _ => do
    t.step depth
    throw .limitExceeded
  | fuel + 1, depth, replace, ty => do
    t.step depth
    match if replace then t.replacement ty else none with
    | some replacement => do
      t.step depth
      t.rebuild (visit t fuel (depth + 1) false) depth replacement
    | none => t.rebuild (visit t fuel (depth + 1) replace) depth ty

theorem visit_replaced {fuel depth : Nat} {ty replacement : Ty}
    (h : t.replacement ty = some replacement) :
    t.visit (fuel + 1) depth true ty =
      (do t.step depth; t.visit (fuel + 1) depth false replacement) := by
  simp [visit, h]

theorem visit_kept {fuel depth : Nat} {replace : Bool}
    (h : replace = true → t.replacement ty = none) :
    t.visit (fuel + 1) depth replace ty =
      (do t.step depth; t.rebuild (t.visit fuel (depth + 1) replace) depth ty) := by
  cases replace with
  | false => simp [visit]
  | true => simp [visit, h rfl]

/-- The steps a traversal may take. -/
def maxSteps : Nat := maxTypeNodes * 4

def run (t : Transform) (ty : Ty) : Except TypeTransformError Ty := do
  let (result, _) ← (t.visit maxTypeDepth 1 true ty).run maxSteps
  if result.withinWireLimits then return result
  else .error .limitExceeded

end Transform

namespace TypeSubstitution

def transform (substitution : TypeSubstitution) (cancel : CancellationToken) : Transform :=
  ⟨substitution, none, none, none, cancel⟩

def apply (substitution : TypeSubstitution) (ty : Ty) (cancel : CancellationToken) :
    Except TypeTransformError Ty :=
  (substitution.transform cancel).run ty

def applyNominal (substitution : TypeSubstitution) (ty : NominalTy) (cancel : CancellationToken) :
    Except TypeTransformError NominalTy := do
  let t := substitution.transform cancel
  -- `fuel`: the arguments stand one level below depth one
  let (value, _) ← (t.nominal (t.visit (maxTypeDepth - 1) 2 true) 1 ty).run Transform.maxSteps
  if (Ty.trait value).withinWireLimits then return value
  else .error .limitExceeded

end TypeSubstitution

/-- Resolve associated outputs on an applied interface after parameter substitution. -/
def resolveAssociatedOutputs (ty : Ty) (interface : NominalTy) (receiver : Ty)
    (cancel : CancellationToken) : Except TypeTransformError Ty :=
  Transform.run ⟨.empty, some (interface, receiver), none, none, cancel⟩ ty

/-! ## Simultaneous substitution -/

/-- A nominal type over other children. -/
def Nominal.mapKids (f : Ty → Ty) (nominal : NominalTy) : NominalTy :=
  ⟨nominal.declaration, nominal.arguments.map f, nominal.associatedTypes.map fun b => (b.1, f b.2)⟩

/-- A type over other children. -/
def Ty.mapKids (f : Ty → Ty) : Ty → Ty
  | .projection arguments receiver interface member =>
    .projection (arguments.map f) (f receiver) (interface.mapKids f) member
  | .host id => .host id
  | .selfType id => .selfType id
  | .parameter owner position => .parameter owner position
  | .builtin ty => .builtin ty
  | .tuple elements => .tuple (elements.map f)
  | .function params result => .function (params.map f) (f result)
  | .iter element => .iter (f element)
  | .range element kind => .range (f element) kind
  | .array element => .array (f element)
  | .map key value access => .map (f key) (f value) access
  | .set element access => .set (f element) access
  | .struct nominal => .struct (nominal.mapKids f)
  | .nativeObject nominal => .nativeObject (nominal.mapKids f)
  | .enum nominal => .enum (nominal.mapKids f)
  | .trait nominal => .trait (nominal.mapKids f)
  | .reference target access => .reference (f target) access

/-- What a substitution may replace. -/
inductive TypeVariable where
  | parameter (owner : DefinitionId) (position : Nat)
  | receiver (owner : DefinitionId)
deriving DecidableEq

variable {f : Ty → Ty} {v : TypeVariable}

section Subst

variable (σ : TypeVariable → Option Ty)

mutual

/-- Every variable replaced at once, by a type in which nothing is replaced. -/
def Ty.subst : Ty → Ty
  | .projection as r i m => .projection (Ty.substAll as) r.subst (Ty.substNominal i) m
  | .host id => .host id
  | .selfType owner => (σ (.receiver owner)).getD (.selfType owner)
  | .parameter owner position => (σ (.parameter owner position)).getD (.parameter owner position)
  | .builtin b => .builtin b
  | .tuple ts => .tuple (Ty.substAll ts)
  | .function ps r => .function (Ty.substAll ps) r.subst
  | .iter t => .iter t.subst
  | .range t kind => .range t.subst kind
  | .array t => .array t.subst
  | .map k v access => .map k.subst v.subst access
  | .set t access => .set t.subst access
  | .struct n => .struct (Ty.substNominal n)
  | .nativeObject n => .nativeObject (Ty.substNominal n)
  | .enum n => .enum (Ty.substNominal n)
  | .trait n => .trait (Ty.substNominal n)
  | .reference t access => .reference t.subst access

def Ty.substAll : List Ty → List Ty
  | [] => []
  | t :: ts => t.subst :: Ty.substAll ts

def Ty.substNominal : NominalTy → NominalTy
  | ⟨d, as, bs⟩ => ⟨d, Ty.substAll as, Ty.substBindings bs⟩

def Ty.substBindings : List (DefinitionId × Ty) → List (DefinitionId × Ty)
  | [] => []
  | b :: bs => Ty.substBinding b :: Ty.substBindings bs

def Ty.substBinding : DefinitionId × Ty → DefinitionId × Ty
  | (id, t) => (id, t.subst)

end

mutual

/-- The variables of a type. -/
def Ty.variables : Ty → List TypeVariable
  | .projection as r i _ => r.variables ++ Ty.variablesNominal i ++ Ty.variablesAll as
  | .host _ => []
  | .selfType owner => [.receiver owner]
  | .parameter owner position => [.parameter owner position]
  | .builtin _ => []
  | .tuple ts => Ty.variablesAll ts
  | .function ps r => Ty.variablesAll ps ++ r.variables
  | .iter t => t.variables
  | .range t _ => t.variables
  | .array t => t.variables
  | .map k v _ => k.variables ++ v.variables
  | .set t _ => t.variables
  | .struct n => Ty.variablesNominal n
  | .nativeObject n => Ty.variablesNominal n
  | .enum n => Ty.variablesNominal n
  | .trait n => Ty.variablesNominal n
  | .reference t _ => t.variables

def Ty.variablesAll : List Ty → List TypeVariable
  | [] => []
  | t :: ts => t.variables ++ Ty.variablesAll ts

def Ty.variablesNominal : NominalTy → List TypeVariable
  | ⟨_, as, bs⟩ => Ty.variablesAll as ++ Ty.variablesBindings bs

def Ty.variablesBindings : List (DefinitionId × Ty) → List TypeVariable
  | [] => []
  | b :: bs => Ty.variablesBinding b ++ Ty.variablesBindings bs

def Ty.variablesBinding : DefinitionId × Ty → List TypeVariable
  | (_, t) => t.variables

end

/-- What stands for a type that is a variable. -/
def Ty.value : Ty → Option Ty
  | .selfType owner => σ (.receiver owner)
  | .parameter owner position => σ (.parameter owner position)
  | _ => none

@[simp] theorem Ty.substAll_eq (ts : List Ty) : Ty.substAll σ ts = ts.map (Ty.subst σ) := by
  induction ts with
  | nil => rfl
  | cons t ts ih => simp [Ty.substAll, ih]

@[simp] theorem Ty.substBindings_eq (bs : List (DefinitionId × Ty)) :
    Ty.substBindings σ bs = bs.map fun b => (b.1, b.2.subst σ) := by
  induction bs with
  | nil => rfl
  | cons b bs ih =>
    obtain ⟨id, t⟩ := b
    simp [Ty.substBindings, Ty.substBinding, ih]

@[simp] theorem Ty.substNominal_eq (n : NominalTy) :
    Ty.substNominal σ n = n.mapKids (Ty.subst σ) := by
  obtain ⟨d, as, bs⟩ := n
  simp [Ty.substNominal, Nominal.mapKids]

/-- A substitution replaces a variable, and goes below anything else. -/
theorem Ty.subst_eq (ty : Ty) : ty.subst σ = (ty.value σ).getD (ty.mapKids (Ty.subst σ)) := by
  cases ty <;> simp [Ty.subst, Ty.value, Ty.mapKids]

theorem Ty.mem_variablesAll {ts : List Ty} :
    v ∈ Ty.variablesAll ts ↔ ∃ t ∈ ts, v ∈ t.variables := by
  induction ts with
  | nil => simp [Ty.variablesAll]
  | cons t ts ih => simp [Ty.variablesAll, ih]

theorem Ty.mem_variablesBindings {bs : List (DefinitionId × Ty)} :
    v ∈ Ty.variablesBindings bs ↔ ∃ t ∈ bs.map Prod.snd, v ∈ t.variables := by
  induction bs with
  | nil => simp [Ty.variablesBindings]
  | cons b bs ih =>
    obtain ⟨id, t⟩ := b
    simp [Ty.variablesBindings, Ty.variablesBinding, ih]

theorem Ty.mem_variablesNominal {n : NominalTy} :
    v ∈ Ty.variablesNominal n ↔ ∃ t ∈ n.kids, v ∈ t.variables := by
  obtain ⟨d, as, bs⟩ := n
  simp [Ty.variablesNominal, Ty.mem_variablesAll, Ty.mem_variablesBindings, Nominal.kids, or_and_right,
    exists_or]

theorem Ty.mem_variables {ty k : Ty} (hk : k ∈ ty.kids) (hv : v ∈ k.variables) :
    v ∈ ty.variables := by
  cases ty <;> simp only [Ty.kids, mem_cons, mem_append, not_mem_nil, or_false] at hk <;>
    simp only [Ty.variables, mem_append, Ty.mem_variablesAll, Ty.mem_variablesNominal] <;> grind

/-! ## Children -/

theorem Nominal.mapKids_congr {f g : Ty → Ty} {nominal : NominalTy}
    (h : ∀ k ∈ nominal.kids, f k = g k) : nominal.mapKids f = nominal.mapKids g := by
  unfold Nominal.mapKids
  have hargs : nominal.arguments.map f = nominal.arguments.map g :=
    map_congr_left fun k hk => h k (mem_append_left _ hk)
  have hbnds : (nominal.associatedTypes.map fun b => (b.1, f b.2)) =
      nominal.associatedTypes.map fun b => (b.1, g b.2) := by
    refine map_congr_left fun b hb => ?_
    rw [h b.2 (mem_append_right _ (mem_map_of_mem hb))]
  rw [hargs, hbnds]

theorem Ty.mapKids_congr {f g : Ty → Ty} (h : ∀ k ∈ ty.kids, f k = g k) :
    ty.mapKids f = ty.mapKids g := by
  cases ty with
  | projection arguments receiver interface member =>
    simp only [Ty.kids, mem_cons, mem_append] at h
    have hargs : arguments.map f = arguments.map g :=
      map_congr_left fun k hk => h k (.inr (.inr hk))
    have hiface : interface.mapKids f = interface.mapKids g :=
      Nominal.mapKids_congr fun k hk => h k (.inr (.inl hk))
    simp only [Ty.mapKids, hargs, hiface, h receiver (.inl rfl)]
  | tuple elements => exact congrArg Ty.tuple (map_congr_left h)
  | function params result =>
    simp only [Ty.kids, mem_append, mem_singleton] at h
    have hprms : params.map f = params.map g := map_congr_left fun k hk => h k (.inl hk)
    simp only [Ty.mapKids, hprms, h result (.inr rfl)]
  | struct nominal => exact congrArg Ty.struct (Nominal.mapKids_congr h)
  | nativeObject nominal => exact congrArg Ty.nativeObject (Nominal.mapKids_congr h)
  | enum nominal => exact congrArg Ty.enum (Nominal.mapKids_congr h)
  | trait nominal => exact congrArg Ty.trait (Nominal.mapKids_congr h)
  | _ => simp_all [Ty.kids, Ty.mapKids]

@[simp] theorem Nominal.mapKids_id (nominal : NominalTy) : nominal.mapKids (fun k => k) = nominal := by
  simp [Nominal.mapKids]

@[simp] theorem Ty.mapKids_id (ty : Ty) : ty.mapKids (fun k => k) = ty := by
  cases ty <;> simp [Ty.mapKids]

theorem Nominal.mapKids_mapKids (f g : Ty → Ty) (n : NominalTy) :
    (n.mapKids f).mapKids g = n.mapKids fun k => g (f k) := by
  simp [Nominal.mapKids, Function.comp_def]

theorem Ty.mapKids_mapKids (f g : Ty → Ty) (ty : Ty) : (ty.mapKids f).mapKids g = ty.mapKids fun k => g (f k) := by
  cases ty <;> simp [Ty.mapKids, Nominal.mapKids_mapKids, Function.comp_def]

/-- Where no variable of a type is replaced, the type stays. -/
theorem Ty.subst_self {σ : TypeVariable → Option Ty} (ty : Ty)
    (h : ∀ v ∈ ty.variables, σ v = none) : ty.subst σ = ty := by
  induction ty using Ty.kids_induction with
  | step ty ih =>
    have hkids : ty.mapKids (.subst σ) = ty := by
      refine (Ty.mapKids_congr fun k hk => ?_).trans ty.mapKids_id
      exact ih k hk fun v hv => h v (Ty.mem_variables hk hv)
    have hval : ty.value σ = none := by
      cases ty with
      | selfType owner => exact h _ (mem_singleton.mpr rfl)
      | parameter owner position => exact h _ (mem_singleton.mpr rfl)
      | _ => rfl
    rw [Ty.subst_eq, hval, Option.getD_none, hkids]

/-- Only the variables of the type matter. -/
theorem Ty.subst_congr {σ τ : TypeVariable → Option Ty} (ty : Ty)
    (h : ∀ v ∈ ty.variables, σ v = τ v) : ty.subst σ = ty.subst τ := by
  induction ty using Ty.kids_induction with
  | step ty ih =>
    have hkids : ty.mapKids (.subst σ) = ty.mapKids (.subst τ) :=
      Ty.mapKids_congr fun k hk => ih k hk fun v hv => h v (Ty.mem_variables hk hv)
    have hval : ty.value σ = ty.value τ := by
      cases ty with
      | selfType owner => exact h _ (mem_singleton.mpr rfl)
      | parameter owner position => exact h _ (mem_singleton.mpr rfl)
      | _ => rfl
    rw [Ty.subst_eq, Ty.subst_eq, hval, hkids]

/-- Substituting twice is substituting once, by what the second makes of the values of the first. -/
theorem Ty.subst_subst (σ τ : TypeVariable → Option Ty) (ty : Ty) :
    (ty.subst σ).subst τ = ty.subst fun v => ((σ v).map (Ty.subst τ)).or (τ v) := by
  induction ty using Ty.kids_induction with
  | step ty ih =>
    have hkids := (ty.mapKids_mapKids (.subst σ) (.subst τ)).trans (Ty.mapKids_congr ih)
    cases ty with
    | selfType owner => cases h : σ (.receiver owner) <;> simp [Ty.subst, h]
    | parameter owner position => cases h : σ (.parameter owner position) <;> simp [Ty.subst, h]
    | host | builtin => rfl
    | _ => simpa [Ty.subst, Ty.mapKids] using hkids

theorem Nominal.ordered_mapKids {nominal : NominalTy} (ho : Ty.OrderedNominal nominal)
    (h : ∀ k ∈ nominal.kids, (f k).Ordered) : Ty.OrderedNominal (nominal.mapKids f) := by
  obtain ⟨d, as, bs⟩ := nominal
  simp only [Nominal.kids, mem_append, mem_map] at h
  simp only [Ty.OrderedNominal, Ty.orderedAll_iff, Ty.orderedBindings_iff] at ho
  simp only [Nominal.mapKids, Ty.OrderedNominal, Ty.orderedAll_iff, Ty.orderedBindings_iff, mem_map]
  refine ⟨?_, ?_, ?_⟩
  · rintro t ⟨k, hk, rfl⟩
    exact h k (.inl hk)
  · have hkeys : (bs.map fun b => (b.1, f b.2)).map Prod.fst = bs.map Prod.fst := by
      rw [map_map]
      rfl
    unfold SortedMap.Keyed
    rw [hkeys]
    exact ho.2.1
  · rintro b ⟨b', hb', rfl⟩
    exact h b'.2 (.inr ⟨b', hb', rfl⟩)

theorem Ty.ordered_mapKids (ho : ty.Ordered)
    (h : ∀ k ∈ ty.kids, (f k).Ordered) : (ty.mapKids f).Ordered := by
  cases ty with
  | projection arguments receiver interface member =>
    simp only [Ty.kids, mem_cons, mem_append] at h
    simp only [Ty.mapKids, Ty.Ordered, Ty.orderedAll_iff, mem_map]
    refine ⟨?_, h receiver (.inl rfl), ?_⟩
    · rintro t ⟨k, hk, rfl⟩
      exact h k (.inr (.inr hk))
    · exact Nominal.ordered_mapKids ho.2.2 fun k hk => h k (.inr (.inl hk))
  | struct nominal | nativeObject nominal | enum nominal | trait nominal =>
    exact Nominal.ordered_mapKids ho h
  | _ => simp_all [Ty.kids, Ty.mapKids, Ty.Ordered]

/-- The bindings stay ordered maps. -/
theorem Ty.ordered_subst {σ : TypeVariable → Option Ty} (hσ : ∀ v t, σ v = some t → t.Ordered) (ty : Ty)
    (ho : ty.Ordered) : (ty.subst σ).Ordered := by
  induction ty using Ty.kids_induction with
  | step ty ih =>
    rw [Ty.subst_eq]
    cases hval : ty.value σ with
    | none => exact Ty.ordered_mapKids ho fun k hk => ih k hk (Ty.ordered_kid hk ho)
    | some t =>
      cases ty with
      | selfType owner => exact hσ _ t hval
      | parameter owner position => exact hσ _ t hval
      | _ => cases hval

end Subst

/-! ## The traversal substitutes -/

namespace Transform

variable {t : Transform}

/-- What the traversal puts for a variable. -/
def values (t : Transform) : TypeVariable → Option Ty
  | .parameter owner position => t.replacement (.parameter owner position)
  | .receiver owner => t.replacement (.selfType owner)

theorem value_values (t : Transform) (ty : Ty) : ty.value t.values = t.replacement ty := by
  cases ty <;> rfl

section Rebuild

variable {visit : Ty → TransformM Ty} {depth : Nat} {f : Ty → Ty}

theorem many_ensures {types : List Ty} (h : ∀ k ∈ types, Ensures (visit k) (· = f k)) :
    Ensures (many visit types) (· = types.map f) :=
  Ensures.guarded fun _ => .mapM h

theorem nominal_ensures {ty : NominalTy} (h : ∀ k ∈ ty.kids, Ensures (visit k) (· = f k)) :
    Ensures (t.nominal visit depth ty) (· = ty.mapKids f) := by
  refine .seq (.guarded fun _ => ?_)
  refine .bind (many_ensures fun k hk => h k (mem_append_left _ hk)) ?_
  rintro arguments rfl
  refine .bind (.mapM (g := fun b => (b.1, f b.2)) fun b hb => ?_) ?_
  · have hmem : b.2 ∈ ty.kids := mem_append_right _ (mem_map_of_mem hb)
    refine .bind (h b.2 hmem) ?_
    rintro value rfl
    exact .pure rfl
  · rintro bindings rfl
    exact .pure rfl

/-- One child. -/
theorem one_ensures {k : Ty} {g : Ty → Ty} (h : Ensures (visit k) (· = f k)) :
    Ensures (do return g (← visit k)) (· = g (f k)) := by
  refine .bind h ?_
  rintro value rfl
  exact .pure rfl

/-- Without outputs to resolve, a type is rebuilt over its transformed children. -/
theorem rebuild_ensures (houts : t.outputs = none) (hlook : t.lookup = none) {ty : Ty}
    (h : ∀ k ∈ ty.kids, Ensures (visit k) (· = f k)) :
    Ensures (t.rebuild visit depth ty) (· = ty.mapKids f) := by
  have hnom : ∀ {n : NominalTy} {g : NominalTy → Ty}, (∀ k ∈ n.kids, Ensures (visit k) (· = f k)) →
      Ensures (do return g (← t.nominal visit depth n)) (· = g (n.mapKids f)) := by
    intro n g hn
    refine .bind (nominal_ensures hn) ?_
    rintro value rfl
    exact .pure rfl
  cases ty with
  | projection arguments receiver interface member =>
    simp only [Ty.kids, mem_cons, mem_append] at h
    refine .bind (h receiver (.inl rfl)) ?_
    rintro r rfl
    refine .bind (nominal_ensures fun k hk => h k (.inr (.inl hk))) ?_
    rintro i rfl
    refine .bind (many_ensures fun k hk => h k (.inr (.inr hk))) ?_
    rintro as rfl
    unfold projection
    rw [if_neg (by simp [houts, hlook])]
    exact .pure rfl
  | tuple elements =>
    refine .bind (many_ensures h) ?_
    rintro elements rfl
    exact .pure rfl
  | function params result =>
    simp only [Ty.kids, mem_append, mem_singleton] at h
    refine .bind (many_ensures fun k hk => h k (.inl hk)) ?_
    rintro params rfl
    exact one_ensures (h result (.inr rfl))
  | map key value access =>
    simp only [Ty.kids, mem_cons, not_mem_nil, or_false] at h
    refine .bind (h key (.inl rfl)) ?_
    rintro key rfl
    exact one_ensures (h value (.inr rfl))
  | iter k | range k _ | array k | set k _ | reference k _ =>
    exact one_ensures (h k (mem_singleton.mpr rfl))
  | struct n | nativeObject n | enum n | trait n => exact hnom h
  | host _ | selfType _ | parameter _ _ | builtin _ => exact .pure rfl

end Rebuild

variable (houts : t.outputs = none) (hlook : t.lookup = none)

include houts hlook

/-- A traversal that does not replace gives the type back. -/
theorem visit_false (fuel : Nat) : ∀ depth ty, Ensures (t.visit fuel depth false ty) (· = ty) := by
  induction fuel with
  | zero => exact fun _ _ => .seq Ensures.throw
  | succ fuel ih =>
    intro depth ty
    rw [visit_kept fun h : false = true => nomatch h]
    refine .seq ((rebuild_ensures houts hlook fun k _ => ih (depth + 1) k).mono ?_)
    intro result h
    rw [h, Ty.mapKids_id]

theorem visit_true (fuel : Nat) :
    ∀ depth ty, Ensures (t.visit fuel depth true ty) (· = ty.subst t.values) := by
  induction fuel with
  | zero => exact fun _ _ => .seq Ensures.throw
  | succ fuel ih =>
    intro depth ty
    rw [Ty.subst_eq, value_values]
    cases hrepl : t.replacement ty with
    | some replacement =>
      rw [visit_replaced hrepl]
      exact .seq (visit_false houts hlook _ depth replacement)
    | none =>
      rw [visit_kept fun _ => hrepl]
      exact .seq (rebuild_ensures houts hlook fun k _ => ih (depth + 1) k)

theorem run_ok {ty result : Ty} (h : t.run ty = .ok result) :
    result = ty.subst t.values ∧ result.withinWireLimits = true := by
  unfold run at h
  obtain ⟨⟨value, remaining⟩, hvis, hlims⟩ := bind_ok.mp h
  have hval := visit_true houts hlook _ _ _ _ _ _ hvis
  dsimp only at hlims
  split at hlims
  · rename_i hwith
    obtain rfl : value = result := Except.ok.inj hlims
    exact ⟨hval, hwith⟩
  · cases hlims

end Transform

namespace TypeSubstitution

/-- What the substitution has for a variable. -/
def values (substitution : TypeSubstitution) : TypeVariable → Option Ty
  | .parameter owner position => substitution.parameters owner position
  | .receiver owner => substitution.receivers owner

theorem values_transform (substitution : TypeSubstitution) (cancel : CancellationToken) :
    (substitution.transform cancel).values = substitution.values := by
  funext v
  cases v <;> rfl

/-- Whatever `apply` returns is the simultaneous substitution: every variable of the type is replaced
once, by its replacement as it is. A type without a replaced variable is returned as it is, bindings
stay ordered maps, and the result can be encoded. -/
theorem apply_exact (substitution : TypeSubstitution) (ty : Ty) (cancel : CancellationToken) {result : Ty}
    (h : substitution.apply ty cancel = .ok result) :
    result = ty.subst substitution.values ∧
    ((∀ v ∈ ty.variables, substitution.values v = none) → result = ty) ∧
    result.withinWireLimits = true ∧
    (ty.Ordered → (∀ v t, substitution.values v = some t → t.Ordered) →
      result.Ordered ∧
      ∀ encoding : DefinitionEncoding, (∀ id ∈ result.definitions, ∃ r, encoding.reference id = .ok r) →
        ∃ wire, WireType.encode result encoding false = .ok wire) := by
  obtain ⟨hres, hlims⟩ := Transform.run_ok (t := substitution.transform cancel) rfl rfl h
  rw [values_transform] at hres
  refine ⟨hres, fun hnone => ?_, hlims, fun ho hvals => ?_⟩
  · rw [hres]
    exact ty.subst_self hnone
  · have hord : result.Ordered := by
      rw [hres]
      exact Ty.ordered_subst hvals ty ho
    exact ⟨hord, fun encoding hkn => WireType.encode_of_limits hord hlims hkn⟩

/-- The first parameter is replaced by the second, and the second by another type: the replacement of
the first stays the second parameter. -/
theorem apply_exact_swap :
    (empty.bind ⟨1, 0⟩ 0 (.parameter ⟨1, 0⟩ 1) |>.bind ⟨1, 0⟩ 1 (.builtin .i32)).apply
      (.tuple [.parameter ⟨1, 0⟩ 0, .parameter ⟨1, 0⟩ 1]) false =
        .ok (.tuple [.parameter ⟨1, 0⟩ 1, .builtin .i32]) ∧
    (Ty.tuple [.parameter ⟨1, 0⟩ 1, .builtin .i32]).withinWireLimits = true := by
  have hrun : (empty.bind ⟨1, 0⟩ 0 (.parameter ⟨1, 0⟩ 1) |>.bind ⟨1, 0⟩ 1 (.builtin .i32)).apply
      (.tuple [.parameter ⟨1, 0⟩ 0, .parameter ⟨1, 0⟩ 1]) false =
        .ok (.tuple [.parameter ⟨1, 0⟩ 1, .builtin .i32]) := rfl
  exact ⟨hrun, (apply_exact _ _ _ hrun).2.2.1⟩

end TypeSubstitution

end Kagari
