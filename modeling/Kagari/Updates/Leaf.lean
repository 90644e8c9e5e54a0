import Kagari.Lib.Reveals
import Kagari.Updates.Budget

/-!
# Wire records of the leaves

The file-local records that the values inside a demand are encoded to: `kagari-types/src/declaration/wire`
and the `wire` modules of `callable`, `native_import` and `types` in `kagari-contract/src`.

`encode` of each record tells values apart: the records of two values are equal exactly when the values are, and
it stops only where a part of the value cannot be encoded (`encode_tellsApart`).
-/

namespace Kagari.Updates

open Lib List

/-! ## Encoders -/

/-- The conversion of a type's error. -/
def DefinitionMappingError.ofTransform : IdentityTransformError → DefinitionMappingError
  | .identity error => .identity error
  | .type .cancelled => .cancelled
  | .type .limitExceeded => .limitExceeded
  | .type .invalidContract => .invalidContract

/-- `check_cancel`. -/
def checkMapping (cancel : CancellationToken) : Except DefinitionMappingError Unit :=
  if cancel then .error .cancelled else .ok ()

structure NominalTyRecord where
  declaration : PortableDefinitionRef
  arguments : List WireType
  associatedTypes : List (PortableDefinitionRef × WireType)

structure ConcreteFunctionIdentityRecord where
  declaration : PortableDefinitionRef
  arguments : List WireType

structure SignatureRecord where
  params : List WireType
  result : WireType

structure NativeDefaultApplicationRecord where
  declaration : PortableDefinitionRef
  arguments : List WireType

inductive CallableImplementationRecord where
  | required
  | script
  | native (id : PortableDefinitionRef)
  | nativeDefault (value : NativeDefaultApplicationRecord)

structure NativeCallableRequirementRecord where
  receiver : WireType
  interface : NominalTyRecord
  member : PortableDefinitionRef
  arguments : List WireType

structure NativeCallableApplicationRecord where
  origin : NativeCallableOrigin
  requirement : NativeCallableRequirementRecord
  inst : ConcreteFunctionIdentityRecord
  implementation : CallableImplementationRecord
  signature : SignatureRecord
  effects : EffectSet

structure GenericParamRecord where
  owner : PortableDefinitionRef
  position : Nat

structure GenericBoundRecord where
  ty : WireType
  constraints : List NominalTyRecord

structure GenericBodyRecord where
  parameters : List GenericParamRecord
  bounds : List GenericBoundRecord

structure SharedCallEntryRecord where
  receiverAccess : Option ReferenceAccess
  inst : ConcreteFunctionIdentityRecord
  implementation : CallableImplementationRecord
  arguments : List WireType
  signature : SignatureRecord

structure ConstructionRequirementRecord where
  receiver : WireType
  interface : NominalTyRecord

structure TypeNormalizationRecord where
  source : WireType
  result : WireType

structure NativeResultAdapterRecord where
  receiver : WireType
  implementation : ConcreteFunctionIdentityRecord

section Encode

variable (encoding : DefinitionEncoding) (cancel : CancellationToken)

def encodeId (id : DefinitionId) : Except DefinitionMappingError PortableDefinitionRef :=
  (encoding.reference id).mapError .identity

def encodeTy (ty : Ty) : Except DefinitionMappingError WireType :=
  (WireType.encode ty encoding cancel).mapError .ofTransform

/-- The loop over the associated types. -/
def encodeAssociated : List (DefinitionId × Ty) → List (PortableDefinitionRef × WireType) →
    Except DefinitionMappingError (List (PortableDefinitionRef × WireType))
  | [], associatedTypes => .ok associatedTypes
  | (member, ty) :: bindings, associatedTypes => do
    let member ← encodeId encoding member
    let ty ← encodeTy encoding cancel ty
    if SortedMap.contains member associatedTypes then .error .invalidContract
    else encodeAssociated bindings (SortedMap.insert member ty associatedTypes)

def encodeNominal (value : NominalTy) : Except DefinitionMappingError NominalTyRecord := do
  checkMapping cancel
  let associatedTypes ← encodeAssociated encoding cancel value.associatedTypes []
  let declaration ← encodeId encoding value.declaration
  let arguments ← value.arguments.mapM (encodeTy encoding cancel)
  return ⟨declaration, arguments, associatedTypes⟩

def ConcreteFunctionIdentity.encode (value : ConcreteFunctionIdentity) :
    Except DefinitionMappingError ConcreteFunctionIdentityRecord := do
  checkMapping cancel
  let declaration ← encodeId encoding value.declaration
  let arguments ← value.arguments.mapM (encodeTy encoding cancel)
  return ⟨declaration, arguments⟩

def Signature.encode (value : Signature) : Except DefinitionMappingError SignatureRecord := do
  checkMapping cancel
  let params ← value.params.mapM (encodeTy encoding cancel)
  let result ← encodeTy encoding cancel value.result
  return ⟨params, result⟩

def NativeDefaultApplication.encode (value : NativeDefaultApplication) :
    Except DefinitionMappingError NativeDefaultApplicationRecord := do
  checkMapping cancel
  let declaration ← encodeId encoding value.declaration
  let arguments ← value.arguments.mapM (encodeTy encoding cancel)
  return ⟨declaration, arguments⟩

def CallableImplementation.encode (value : CallableImplementation) :
    Except DefinitionMappingError CallableImplementationRecord := do
  checkMapping cancel
  match value with
  | .required => return .required
  | .script => return .script
  | .native id => return .native (← encodeId encoding id)
  | .nativeDefault value => return .nativeDefault (← value.encode encoding cancel)

def NativeCallableRequirement.encode (value : NativeCallableRequirement) :
    Except DefinitionMappingError NativeCallableRequirementRecord := do
  checkMapping cancel
  let receiver ← encodeTy encoding cancel value.receiver
  let interface ← encodeNominal encoding cancel value.interface
  let member ← encodeId encoding value.member
  let arguments ← value.arguments.mapM (encodeTy encoding cancel)
  return ⟨receiver, interface, member, arguments⟩

def NativeCallableApplication.encode (value : NativeCallableApplication) :
    Except DefinitionMappingError NativeCallableApplicationRecord := do
  checkMapping cancel
  let requirement ← value.requirement.encode encoding cancel
  let inst ← value.inst.encode encoding cancel
  let implementation ← value.implementation.encode encoding cancel
  let signature ← value.signature.encode encoding cancel
  return ⟨value.origin, requirement, inst, implementation, signature, value.effects⟩

def encodeGenericParam (value : GenericParam) : Except DefinitionMappingError GenericParamRecord := do
  checkMapping cancel
  return ⟨← encodeId encoding value.owner, value.position⟩

def encodeGenericBound (value : GenericBound) : Except DefinitionMappingError GenericBoundRecord := do
  checkMapping cancel
  let ty ← encodeTy encoding cancel value.ty
  let constraints ← value.constraints.mapM (encodeNominal encoding cancel)
  return ⟨ty, constraints⟩

def GenericBody.encode (value : GenericBody) : Except DefinitionMappingError GenericBodyRecord := do
  checkMapping cancel
  let parameters ← value.parameters.mapM (encodeGenericParam encoding cancel)
  let bounds ← value.bounds.mapM (encodeGenericBound encoding cancel)
  return ⟨parameters, bounds⟩

def SharedCallEntry.encode (value : SharedCallEntry) : Except DefinitionMappingError SharedCallEntryRecord := do
  checkMapping cancel
  let inst ← value.inst.encode encoding cancel
  let implementation ← value.implementation.encode encoding cancel
  let arguments ← value.arguments.mapM (encodeTy encoding cancel)
  let signature ← value.signature.encode encoding cancel
  return ⟨value.receiverAccess, inst, implementation, arguments, signature⟩

def ConstructionRequirement.encode (value : ConstructionRequirement) :
    Except DefinitionMappingError ConstructionRequirementRecord := do
  checkMapping cancel
  let receiver ← encodeTy encoding cancel value.receiver
  let interface ← encodeNominal encoding cancel value.interface
  return ⟨receiver, interface⟩

def TypeNormalization.encode (value : TypeNormalization) :
    Except DefinitionMappingError TypeNormalizationRecord := do
  checkMapping cancel
  let source ← encodeTy encoding cancel value.source
  let result ← encodeTy encoding cancel value.result
  return ⟨source, result⟩

def NativeResultAdapter.encode (value : NativeResultAdapter) :
    Except DefinitionMappingError NativeResultAdapterRecord := do
  checkMapping cancel
  let receiver ← encodeTy encoding cancel value.receiver
  let implementation ← value.implementation.encode encoding cancel
  return ⟨receiver, implementation⟩

/-! ## Conditions on the parts -/

/-- The bindings of every type stand in key order. -/
def Part.Ordered : Part → Prop
  | .id _ => True
  | .ty t => t.Ordered
  | .nominal n => Ty.OrderedNominal n

/-- A part is encoded, or its encoding stops with an error in `E`. -/
def Part.Admitted (E : DefinitionMappingError → Prop) : Part → Prop
  | .id definition => Stops E (encodeId encoding definition)
  | .ty t => Stops E (encodeTy encoding cancel t)
  | .nominal n => Stops E (encodeNominal encoding cancel n)

/-- What the encoders need of a part. -/
def Part.Good (E : DefinitionMappingError → Prop) (part : Part) : Prop :=
  part.Ordered ∧ part.Admitted encoding cancel E

end Encode

/-! ## Identities, types and their bindings -/

variable {bindings : List (DefinitionId × Ty)} {id : DefinitionId} {n : NominalTy} {part : Part}

section TellsApart

variable {encoding : DefinitionEncoding} {cancel : CancellationToken} {E : DefinitionMappingError → Prop}

@[simp] theorem Part.good_id :
    (Part.id id).Good encoding cancel E ↔ Stops E (encodeId encoding id) := Iff.of_eq (true_and _)

@[simp] theorem Part.good_ty {t : Ty} :
    (Part.ty t).Good encoding cancel E ↔ t.Ordered ∧ Stops E (encodeTy encoding cancel t) := .rfl

@[simp] theorem Part.good_nominal :
    (Part.nominal n).Good encoding cancel E ↔ Ty.OrderedNominal n ∧ Stops E (encodeNominal encoding cancel n) := .rfl

/-- Where every error will do. -/
theorem Part.good_of_ordered (h : part.Ordered) : part.Good encoding cancel fun _ => True := by
  cases part <;> exact ⟨h, fun _ _ => trivial⟩

theorem mapError_eq_ok {ε ε' α : Type} {g : ε → ε'} {x : Except ε α} {a : α} :
    x.mapError g = .ok a ↔ x = .ok a := by
  cases x <;> simp [Except.mapError]

theorem encodeId_tellsApart : TellsApart E (fun id => Stops E (encodeId encoding id)) (encodeId encoding) :=
  .of_injective (fun _ h => h) fun _ _ _ _ _ hr hr' =>
    DefinitionEncoding.reference_injective (mapError_eq_ok.mp hr) (mapError_eq_ok.mp hr')

theorem encodeTy_tellsApart : TellsApart E (fun t => t.Ordered ∧ Stops E (encodeTy encoding cancel t))
    (encodeTy encoding cancel) :=
  .of_injective (fun _ h => h.2) fun _ _ _ h h' hw hw' =>
    WireType.encode_injective h.1 h'.1 (mapError_eq_ok.mp hw) (mapError_eq_ok.mp hw')

theorem encodeId_inj {id id' : DefinitionId} {r : PortableDefinitionRef} (h : encodeId encoding id = .ok r)
    (h' : encodeId encoding id' = .ok r) : id = id' :=
  (encodeId_tellsApart (E := fun _ => True)).inj (fun _ _ => trivial) (fun _ _ => trivial) h h'

/-- The entries that were encoded: those of the bindings and those that were there. -/
theorem encodeAssociated_ok :
    ∀ {acc out : List (PortableDefinitionRef × WireType)}, SortedMap.Keyed acc →
      encodeAssociated encoding cancel bindings acc = .ok out → ∀ e, e ∈ out ↔ e ∈ acc ∨
        ∃ b ∈ bindings, encodeId encoding b.1 = .ok e.1 ∧ encodeTy encoding cancel b.2 = .ok e.2 := by
  induction bindings with
  | nil =>
    intro acc out _ h e
    rw [Except.ok.inj h]
    simp
  | cons binding bindings ih =>
    obtain ⟨member, ty⟩ := binding
    intro acc out hacc h e
    obtain ⟨r, hr, h⟩ := bind_ok.mp h
    obtain ⟨w, hw, h⟩ := bind_ok.mp h
    split at h
    · cases h
    · rename_i hnew
      have hnew := SortedMap.contains_false_iff.mp (Bool.not_eq_true _ ▸ hnew)
      rw [ih (SortedMap.keyed_insert hacc) h e, SortedMap.mem_insert hacc]
      have hne : e ∈ acc → e.1 ≠ r := fun he heq => hnew (heq ▸ mem_map_of_mem he)
      obtain ⟨er, ew⟩ := e
      simp only [mem_cons, exists_eq_or_imp, hr, hw, Except.ok.injEq, Prod.mk.injEq]
      grind

/-- Every binding was encoded. -/
theorem encodeAssociated_each :
    ∀ {acc out : List (PortableDefinitionRef × WireType)}, encodeAssociated encoding cancel bindings acc = .ok out →
      ∀ b ∈ bindings, ∃ r w, encodeId encoding b.1 = .ok r ∧ encodeTy encoding cancel b.2 = .ok w := by
  induction bindings with
  | nil => exact fun _ => nofun
  | cons binding bindings ih =>
    intro acc out h
    obtain ⟨r, hr, h⟩ := bind_ok.mp h
    obtain ⟨w, hw, h⟩ := bind_ok.mp h
    split at h
    · cases h
    · exact forall_mem_cons.mpr ⟨⟨r, w, hr, hw⟩, ih h⟩

theorem encodeAssociated_inj {bindings bindings' : List (DefinitionId × Ty)} (h : SortedMap.Keyed bindings)
    (h' : SortedMap.Keyed bindings') (ho : ∀ b ∈ bindings, b.2.Ordered) (ho' : ∀ b ∈ bindings', b.2.Ordered)
    {out : List (PortableDefinitionRef × WireType)} (hr : encodeAssociated encoding cancel bindings [] = .ok out)
    (hr' : encodeAssociated encoding cancel bindings' [] = .ok out) : bindings = bindings' := by
  have hnil : SortedMap.Keyed ([] : List (PortableDefinitionRef × WireType)) := List.Pairwise.nil
  have hmem := encodeAssociated_ok hnil hr
  have hmem' := encodeAssociated_ok hnil hr'
  simp only [not_mem_nil, false_or] at hmem hmem'
  have hsub : ∀ {left right : List (DefinitionId × Ty)}, (∀ b ∈ left, b.2.Ordered) →
      (∀ b ∈ right, b.2.Ordered) →
      (∀ e : PortableDefinitionRef × WireType, (∃ b ∈ left, encodeId encoding b.1 = .ok e.1 ∧
        encodeTy encoding cancel b.2 = .ok e.2) → ∃ b ∈ right, encodeId encoding b.1 = .ok e.1 ∧
        encodeTy encoding cancel b.2 = .ok e.2) →
      (∀ b ∈ left, ∃ r w, encodeId encoding b.1 = .ok r ∧ encodeTy encoding cancel b.2 = .ok w) →
      left ⊆ right := by
    intro left right hleft hrt hall hsome b hb
    obtain ⟨id, w, hid, hw⟩ := hsome b hb
    obtain ⟨b', hb', hid', hw'⟩ := hall (id, w) ⟨b, hb, hid, hw⟩
    have hsnd := WireType.encode_injective (hleft b hb) (hrt b' hb') (mapError_eq_ok.mp hw) (mapError_eq_ok.mp hw')
    rwa [Prod.ext (encodeId_inj hid hid') hsnd]
  refine SortedMap.eq_of_perm h h' ((perm_ext_iff_of_nodup ?_ ?_).mpr fun b => ⟨?_, ?_⟩)
  · exact List.Nodup.of_map _ h.nodup
  · exact List.Nodup.of_map _ h'.nodup
  · refine fun hb => hsub ho ho' (fun e he => (hmem' e).mp ((hmem e).mpr he)) (encodeAssociated_each hr) hb
  · refine fun hb => hsub ho' ho (fun e he => (hmem e).mp ((hmem' e).mpr he)) (encodeAssociated_each hr') hb

/-- Of every binding list, the errors aside. -/
theorem encodeNominal_inj {value value' : NominalTy} (h : Ty.OrderedNominal value) (h' : Ty.OrderedNominal value')
    {r : NominalTyRecord} (hr : encodeNominal encoding cancel value = .ok r)
    (hr' : encodeNominal encoding cancel value' = .ok r) : value = value' := by
  have hnom : TellsApart (fun _ => True) Ty.OrderedNominal (encodeNominal encoding cancel) := by
    rintro ⟨declaration, arguments, bindings⟩ ⟨declaration', arguments', bindings'⟩ h h'
    simp only [Ty.OrderedNominal, Ty.orderedAll_iff, Ty.orderedBindings_iff] at h h'
    have hbnds : TellsApart (fun _ => True) (fun bs => SortedMap.Keyed bs ∧ ∀ b ∈ bs, b.2.Ordered)
        fun bs => encodeAssociated encoding cancel bs [] :=
      .of_injective (fun _ _ _ _ => trivial) fun _ _ _ h h' => encodeAssociated_inj h.1 h'.1 h.2 h'.2
    refine .seq (fun _ _ => trivial) (fun _ _ => trivial) (.bind (hbnds _ _ h.2 h'.2) fun bs bs' =>
      .bind (encodeId_tellsApart _ _ (fun _ _ => trivial) fun _ _ => trivial) fun r r' =>
      .bind (encodeTy_tellsApart.mapM _ _ (fun t ht => ⟨h.1 t ht, fun _ _ => trivial⟩)
        fun t ht => ⟨h'.1 t ht, fun _ _ => trivial⟩) fun ws ws' => .pure ?_)
    rintro ⟨⟨⟨-, hbs⟩, hr⟩, hws⟩
    simp [hbs, hr, hws]
  exact hnom.inj h h' hr hr'

theorem encodeNominal_tellsApart :
    TellsApart E (fun n => Ty.OrderedNominal n ∧ Stops E (encodeNominal encoding cancel n))
      (encodeNominal encoding cancel) :=
  .of_injective (fun _ h => h.2) fun _ _ _ h h' => encodeNominal_inj h.1 h'.1

/-! ## Records -/

variable (encoding cancel E) in
/-- The encoder tells values apart whose parts are good. -/
abbrev EncodesApart {α ρ : Type} (parts : α → List Part)
    (encode : DefinitionEncoding → CancellationToken → α → Except DefinitionMappingError ρ) : Prop :=
  TellsApart E (fun value => AllParts (Part.Good encoding cancel E) (parts value)) (encode encoding cancel)

variable (hcanc : cancel = true → E .cancelled)

include hcanc

theorem checkMapping_stops : Stops E (checkMapping cancel) := by
  intro e he
  change checkMapping cancel = .error e at he
  unfold checkMapping at he
  split at he
  · rename_i h
    exact Except.error.inj he ▸ hcanc h
  · cases he

/-- Every record starts with a check of the token. -/
theorem checked_reveals {ρ : Type} {C P : Prop} {x x' : Except DefinitionMappingError ρ} (h : Reveals E C x x' P) :
    Reveals E C (do checkMapping cancel; x) (do checkMapping cancel; x') P :=
  .seq (checkMapping_stops hcanc) (checkMapping_stops hcanc) h

theorem ConcreteFunctionIdentity.encode_tellsApart :
    EncodesApart encoding cancel E ConcreteFunctionIdentity.parts ConcreteFunctionIdentity.encode := by
  rintro ⟨declaration, arguments⟩ ⟨declaration', arguments'⟩ h h'
  simp only [parts, allParts_cons, allParts_map, Part.good_id, Part.good_ty] at h h'
  refine checked_reveals hcanc (.bind (encodeId_tellsApart _ _ h.1 h'.1) fun r r' =>
    .bind (encodeTy_tellsApart.mapM _ _ h.2 h'.2) fun ws ws' => .pure ?_)
  rintro ⟨⟨-, hr⟩, hws⟩
  simp [hr, hws]

theorem Signature.encode_tellsApart : EncodesApart encoding cancel E Signature.parts Signature.encode := by
  rintro ⟨params, result⟩ ⟨params', result'⟩ h h'
  simp only [parts, allParts_append, allParts_cons, allParts_nil, allParts_map, Part.good_ty, and_true] at h h'
  refine checked_reveals hcanc (.bind (encodeTy_tellsApart.mapM _ _ h.1 h'.1) fun ws ws' =>
    .bind (encodeTy_tellsApart _ _ h.2 h'.2) fun w w' => .pure ?_)
  rintro ⟨⟨-, hws⟩, hw⟩
  simp [hws, hw]

theorem NativeDefaultApplication.encode_tellsApart :
    EncodesApart encoding cancel E NativeDefaultApplication.parts NativeDefaultApplication.encode := by
  rintro ⟨declaration, arguments⟩ ⟨declaration', arguments'⟩ h h'
  simp only [parts, allParts_cons, allParts_map, Part.good_id, Part.good_ty] at h h'
  refine checked_reveals hcanc (.bind (encodeId_tellsApart _ _ h.1 h'.1) fun r r' =>
    .bind (encodeTy_tellsApart.mapM _ _ h.2 h'.2) fun ws ws' => .pure ?_)
  rintro ⟨⟨-, hr⟩, hws⟩
  simp [hr, hws]

theorem CallableImplementation.encode_stops {value : CallableImplementation}
    (h : AllParts (Part.Good encoding cancel E) value.parts) : Stops E (value.encode encoding cancel) := by
  refine .bind (checkMapping_stops hcanc) fun _ => ?_
  cases value with
  | required | script => exact .pure
  | native id => exact .bind (Part.good_id.mp (allParts_cons.mp h).1) fun _ => .pure
  | nativeDefault value => exact .bind ((NativeDefaultApplication.encode_tellsApart hcanc).stops h) fun _ => .pure

theorem CallableImplementation.encode_tellsApart :
    EncodesApart encoding cancel E CallableImplementation.parts CallableImplementation.encode := by
  refine .of_injective (fun _ h => encode_stops hcanc h) fun value value' record h h' hrun hrun' => ?_
  obtain ⟨_, -, hr⟩ := bind_ok.mp hrun
  obtain ⟨_, -, hr'⟩ := bind_ok.mp hrun'
  clear hrun hrun'
  cases value <;> cases value' <;>
    simp only [bind_ok, pure, Except.pure, Except.ok.injEq] at hr hr'
  case native.native id id' =>
    obtain ⟨r, hr, rfl⟩ := hr
    obtain ⟨r', hr', heq⟩ := hr'
    cases heq
    rw [encodeId_inj hr hr']
  case nativeDefault.nativeDefault value value' =>
    obtain ⟨r, hr, rfl⟩ := hr
    obtain ⟨r', hr', heq⟩ := hr'
    cases heq
    rw [(NativeDefaultApplication.encode_tellsApart hcanc).inj h h' hr hr']
  all_goals grind -ring -linarith

theorem NativeCallableRequirement.encode_tellsApart :
    EncodesApart encoding cancel E NativeCallableRequirement.parts NativeCallableRequirement.encode := by
  rintro ⟨receiver, interface, member, arguments⟩ ⟨receiver', interface', member', arguments'⟩ h h'
  simp only [parts, allParts_append, allParts_cons, allParts_nil, allParts_map, Part.good_id, Part.good_ty,
    Part.good_nominal, and_true] at h h'
  obtain ⟨⟨hrecv, hiface, hmember⟩, hargs⟩ := h
  obtain ⟨⟨hrecv', hiface', hmember'⟩, hargs'⟩ := h'
  refine checked_reveals hcanc (.bind (encodeTy_tellsApart _ _ hrecv hrecv') fun w w' =>
    .bind (encodeNominal_tellsApart _ _ hiface hiface') fun n n' =>
    .bind (encodeId_tellsApart _ _ hmember hmember') fun r r' =>
    .bind (encodeTy_tellsApart.mapM _ _ hargs hargs') fun ws ws' => .pure ?_)
  rintro ⟨⟨⟨⟨-, hw⟩, hn⟩, hr⟩, hws⟩
  simp [hw, hn, hr, hws]

theorem NativeCallableApplication.encode_tellsApart :
    EncodesApart encoding cancel E NativeCallableApplication.parts NativeCallableApplication.encode := by
  rintro ⟨origin, requirement, inst, implementation, signature, effects⟩
    ⟨origin', requirement', inst', implementation', signature', effects'⟩ h h'
  simp only [parts, allParts_append] at h h'
  refine checked_reveals hcanc (.bind
    (NativeCallableRequirement.encode_tellsApart hcanc _ _ h.1.1.1 h'.1.1.1) fun q q' =>
    .bind (ConcreteFunctionIdentity.encode_tellsApart hcanc _ _ h.1.1.2 h'.1.1.2) fun i i' =>
    .bind (CallableImplementation.encode_tellsApart hcanc _ _ h.1.2 h'.1.2) fun m m' =>
    .bind (Signature.encode_tellsApart hcanc _ _ h.2 h'.2) fun s s' => .pure ?_)
  rintro ⟨⟨⟨⟨-, hq⟩, hi⟩, hm⟩, hs⟩
  simp [hq, hi, hm, hs]

theorem encodeGenericParam_tellsApart :
    TellsApart E (fun value => AllParts (Part.Good encoding cancel E) (genericParamParts value))
      (encodeGenericParam encoding cancel) := by
  rintro ⟨owner, position⟩ ⟨owner', position'⟩ h h'
  simp only [genericParamParts, allParts_cons, Part.good_id] at h h'
  refine checked_reveals hcanc (.bind (encodeId_tellsApart _ _ h.1 h'.1) fun r r' => .pure ?_)
  rintro ⟨-, hr⟩
  simp [hr]

theorem encodeGenericBound_tellsApart :
    TellsApart E (fun value => AllParts (Part.Good encoding cancel E) (genericBoundParts value))
      (encodeGenericBound encoding cancel) := by
  rintro ⟨ty, constraints⟩ ⟨ty', constraints'⟩ h h'
  simp only [genericBoundParts, allParts_cons, allParts_map, Part.good_ty, Part.good_nominal] at h h'
  refine checked_reveals hcanc (.bind (encodeTy_tellsApart _ _ h.1 h'.1) fun w w' =>
    .bind (encodeNominal_tellsApart.mapM _ _ h.2 h'.2) fun ns ns' => .pure ?_)
  rintro ⟨⟨-, hw⟩, hns⟩
  simp [hw, hns]

theorem GenericBody.encode_tellsApart :
    EncodesApart encoding cancel E GenericBody.parts GenericBody.encode := by
  rintro ⟨parameters, bounds⟩ ⟨parameters', bounds'⟩ h h'
  simp only [parts, allParts_append, allParts_flatMap] at h h'
  refine checked_reveals hcanc (.bind ((encodeGenericParam_tellsApart hcanc).mapM _ _ h.1 h'.1) fun ps ps' =>
    .bind ((encodeGenericBound_tellsApart hcanc).mapM _ _ h.2 h'.2) fun bs bs' => .pure ?_)
  rintro ⟨⟨-, hps⟩, hbs⟩
  simp [hps, hbs]

theorem SharedCallEntry.encode_tellsApart :
    EncodesApart encoding cancel E SharedCallEntry.parts SharedCallEntry.encode := by
  rintro ⟨receiverAccess, inst, implementation, arguments, signature⟩
    ⟨receiverAccess', inst', implementation', arguments', signature'⟩ h h'
  simp only [parts, allParts_append, allParts_map, Part.good_ty] at h h'
  refine checked_reveals hcanc (.bind
    (ConcreteFunctionIdentity.encode_tellsApart hcanc _ _ h.1.1.1 h'.1.1.1) fun i i' =>
    .bind (CallableImplementation.encode_tellsApart hcanc _ _ h.1.1.2 h'.1.1.2) fun m m' =>
    .bind (encodeTy_tellsApart.mapM _ _ h.1.2 h'.1.2) fun ws ws' =>
    .bind (Signature.encode_tellsApart hcanc _ _ h.2 h'.2) fun s s' => .pure ?_)
  rintro ⟨⟨⟨⟨-, hi⟩, hm⟩, hws⟩, hs⟩
  simp [hi, hm, hws, hs]

theorem ConstructionRequirement.encode_tellsApart :
    EncodesApart encoding cancel E ConstructionRequirement.parts ConstructionRequirement.encode := by
  rintro ⟨receiver, interface⟩ ⟨receiver', interface'⟩ h h'
  simp only [parts, allParts_cons, allParts_nil, Part.good_ty, Part.good_nominal, and_true] at h h'
  refine checked_reveals hcanc (.bind (encodeTy_tellsApart _ _ h.1 h'.1) fun w w' =>
    .bind (encodeNominal_tellsApart _ _ h.2 h'.2) fun n n' => .pure ?_)
  rintro ⟨⟨-, hw⟩, hn⟩
  simp [hw, hn]

theorem TypeNormalization.encode_tellsApart :
    EncodesApart encoding cancel E TypeNormalization.parts TypeNormalization.encode := by
  rintro ⟨source, result⟩ ⟨source', result'⟩ h h'
  simp only [parts, allParts_cons, allParts_nil, Part.good_ty, and_true] at h h'
  refine checked_reveals hcanc (.bind (encodeTy_tellsApart _ _ h.1 h'.1) fun w w' =>
    .bind (encodeTy_tellsApart _ _ h.2 h'.2) fun v v' => .pure ?_)
  rintro ⟨⟨-, hw⟩, hv⟩
  simp [hw, hv]

theorem NativeResultAdapter.encode_tellsApart :
    EncodesApart encoding cancel E NativeResultAdapter.parts NativeResultAdapter.encode := by
  rintro ⟨receiver, implementation⟩ ⟨receiver', implementation'⟩ h h'
  simp only [parts, allParts_cons, Part.good_ty] at h h'
  refine checked_reveals hcanc (.bind (encodeTy_tellsApart _ _ h.1 h'.1) fun w w' =>
    .bind (ConcreteFunctionIdentity.encode_tellsApart hcanc _ _ h.2 h'.2) fun i i' => .pure ?_)
  rintro ⟨⟨-, hw⟩, hi⟩
  simp [hw, hi]

end TellsApart

/-! ## Parts whose definitions are known -/

section Known

variable {encoding : DefinitionEncoding} {E : DefinitionMappingError → Prop}

theorem encodeId_known (h : ∃ r, encoding.reference id = .ok r) :
    ∃ r, encodeId encoding id = .ok r := h.imp fun _ hr => mapError_eq_ok.mpr hr

theorem encodeTy_known {t : Ty} (ho : t.Ordered) (hlims : t.withinWireLimits = true)
    (h : ∀ id ∈ t.definitions, ∃ r, encoding.reference id = .ok r) : ∃ w, encodeTy encoding false t = .ok w :=
  (WireType.encode_of_limits ho hlims h).imp fun _ hw => mapError_eq_ok.mpr hw

/-- The references of the keys are new, so no binding is rejected. -/
theorem encodeAssociated_known (hnd : (bindings.map Prod.fst).Nodup)
    (h : ∀ b ∈ bindings, (∃ r, encodeId encoding b.1 = .ok r) ∧ ∃ w, encodeTy encoding false b.2 = .ok w) :
    ∀ acc : List (PortableDefinitionRef × WireType),
      (∀ b ∈ bindings, ∀ r, encodeId encoding b.1 = .ok r → r ∉ acc.map Prod.fst) →
      ∃ out, encodeAssociated encoding false bindings acc = .ok out := by
  induction bindings with
  | nil => exact fun acc _ => ⟨acc, rfl⟩
  | cons binding bindings ih =>
    obtain ⟨member, ty⟩ := binding
    intro acc hnew
    obtain ⟨hmember, hnd⟩ := nodup_cons.mp hnd
    obtain ⟨⟨⟨r, hr⟩, w, hw⟩, h⟩ := forall_mem_cons.mp h
    obtain ⟨hhead, htail⟩ := forall_mem_cons.mp hnew
    have hadd : SortedMap.contains r acc = false := SortedMap.contains_false_iff.mpr (hhead r hr)
    have hrest : ∀ b ∈ bindings, ∀ r', encodeId encoding b.1 = .ok r' →
        r' ∉ (SortedMap.insert r w acc).map Prod.fst := by
      intro b hb r' hr' hmem
      rcases SortedMap.mem_keys_insert.mp hmem with rfl | hmem
      · have heq := encodeId_inj hr' hr
        have hkey := mem_map_of_mem (f := Prod.fst) hb
        rw [heq] at hkey
        exact hmember hkey
      · exact htail b hb r' hr' hmem
    obtain ⟨out, hout⟩ := ih hnd h _ hrest
    exact ⟨out, by simp [encodeAssociated, hr, hw, hadd, hout]⟩

theorem encodeNominal_known (ho : Ty.OrderedNominal n)
    (hlims : ∀ kid ∈ n.kids, kid.withinWireLimits = true)
    (h : ∀ id ∈ Ty.definitionsNominal n, ∃ r, encoding.reference id = .ok r) :
    Stops E (encodeNominal encoding false n) := by
  obtain ⟨declaration, arguments, bindings⟩ := n
  simp only [Ty.OrderedNominal, Ty.orderedAll_iff, Ty.orderedBindings_iff] at ho
  simp only [Ty.definitionsNominal, Ty.definitionsAll_eq, Ty.definitionsBindings_eq, mem_cons,
    mem_append, mem_flatMap] at h
  simp only [Nominal.kids, mem_append, mem_map] at hlims
  have hbnds : ∀ b ∈ bindings, (∃ r, encodeId encoding b.1 = .ok r) ∧ ∃ w, encodeTy encoding false b.2 = .ok w :=
    fun b hb => ⟨encodeId_known (h b.1 (.inr (.inr ⟨b, hb, .inl rfl⟩))),
      encodeTy_known (ho.2.2 b hb) (hlims b.2 (.inr ⟨b, hb, rfl⟩)) fun id hid => h id (.inr (.inr ⟨b, hb, .inr hid⟩))⟩
  obtain ⟨out, hout⟩ := encodeAssociated_known ho.2.1.nodup hbnds [] (by simp)
  obtain ⟨r, hr⟩ := encodeId_known (h declaration (.inl rfl))
  refine .bind (checkMapping_stops (by simp)) fun _ => .bind (hout ▸ .ok) fun _ => .bind (hr ▸ .ok) fun _ =>
    .bind (.mapM fun t ht => ?_) fun _ => .pure
  obtain ⟨w, hw⟩ := encodeTy_known (ho.1 t ht) (hlims t (.inl ht)) fun id hid => h id (.inr (.inl ⟨t, ht, hid⟩))
  exact hw ▸ .ok

/-- A part whose types are within the limits and whose definitions are known is encoded. -/
theorem Part.good_of_known (ho : part.Ordered) (hlims : part.Limited)
    (h : ∀ id ∈ part.definitions, ∃ r, encoding.reference id = .ok r) : part.Good encoding false E := by
  refine ⟨ho, ?_⟩
  cases part with
  | id definition =>
    obtain ⟨r, hr⟩ := encodeId_known (h definition (mem_singleton_self _))
    show Stops E (encodeId encoding definition)
    exact hr ▸ .ok
  | ty t =>
    obtain ⟨w, hw⟩ := encodeTy_known ho hlims h
    show Stops E (encodeTy encoding false t)
    exact hw ▸ .ok
  | nominal n => exact encodeNominal_known ho hlims h

end Known

end Kagari.Updates
