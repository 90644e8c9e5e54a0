import Kagari.Updates.Evidence

/-!
# Keys of demand records

`kagari-contract/src/updates/wire.rs` and `wire/values.rs`: a record is encoded to its wire form under
the budget, and its key is the serialized wire form. The serializer is not part of the repository:
`Serializer` says what is used of it.

The keys of two records are equal exactly when the records are, under any encoding, and a record whose
parts can be encoded gets a key unless a limit is exceeded (`BodyApplication.key_tellsApart`,
`BodyRequirement.key_tellsApart`, `CallRequirement.key_tellsApart`).
-/

namespace Kagari.Updates

open Lib

def Stopped.update {cancel : CancellationToken} : Stopped cancel → UpdateError
  | .cancelled _ => .cancelled
  | .limitExceeded => .limitExceeded

/-- The conversion of an error of the encoders. -/
def UpdateError.ofMapping : DefinitionMappingError → UpdateError
  | .cancelled => .cancelled
  | .limitExceeded => .limitExceeded
  | error => .identity error

abbrev UpdateM := StateT Budget (Except UpdateError)

/-- A charge, with the errors of an update. -/
def charged {cancel : CancellationToken} {α : Type} (m : Charged cancel α) : UpdateM α :=
  fun budget => (m.run budget).mapError Stopped.update

/-! ## Wire forms -/

structure BodyApplicationWire where
  body : ConcreteFunctionIdentityRecord
  arguments : List WireType

inductive CallRequirementWire where
  | direct (inst : ConcreteFunctionIdentityRecord)
  | shared (call : SharedCallRecord)
  | interface (call : InterfaceCallContractRecord)
  | retainedBody (application : BodyApplicationWire)
  | native (imported : NativeImportRecord)
  | operation (witness : EvidenceRecord)
  | construction (witness : EvidenceRecord)
  | layout (ty : WireType)
  | unknown (reason : UnknownReason)

structure BodyRequirementWire where
  origin : ConcreteFunctionIdentityRecord
  generic : Option GenericBodyRecord
  calls : List CallRequirementWire

/-- What is given to the serializer. -/
inductive Serializable where
  | ty (value : WireType)
  | identity (value : ConcreteFunctionIdentityRecord)
  | generic (value : GenericBodyRecord)
  | shared (value : SharedCallRecord)
  | interface (value : InterfaceCallContractRecord)
  | native (value : NativeImportRecord)
  | evidence (value : EvidenceRecord)
  | reason (value : UnknownReason)
  | application (value : BodyApplicationWire)
  | body (value : BodyRequirementWire)
  | call (value : CallRequirementWire)

/-- The binary serializer, into the keys `K`: bytes, and how many. -/
structure Serializer (K : Type) where
  serialize : Serializable → K
  serializedSize : Serializable → Nat

/-- No two records of one of the three types have the same bytes. -/
structure Serializer.Injective {K : Type} (serializer : Serializer K) : Prop where
  application : Function.Injective fun record => serializer.serialize (.application record)
  body : Function.Injective fun record => serializer.serialize (.body record)
  call : Function.Injective fun record => serializer.serialize (.call record)

section Encode

variable {K α ρ : Type} (serializer : Serializer K) (encoding : DefinitionEncoding) (cancel : CancellationToken)

/-- A leaf: its shape is checked before it is encoded, its bytes are charged behind. -/
def encodeLeaf (check : Charged cancel Unit) (encode : Except DefinitionMappingError ρ) (record : ρ → Serializable) :
    UpdateM ρ := do
  charged check
  charged (Budget.records cancel 1)
  let value ← encode.mapError UpdateError.ofMapping
  charged (Budget.bytes cancel (serializer.serializedSize (record value)))
  return value

def encodeVec (encodeValue : α → UpdateM ρ) (values : List α) : UpdateM (List ρ) :=
  if values.length > maxRecords then throw .limitExceeded
  else do
    charged (Budget.records cancel values.length)
    charged (Budget.bytes cancel 8)
    values.mapM encodeValue

def encodeOption (encodeValue : α → UpdateM ρ) (value : Option α) : UpdateM (Option ρ) := do
  charged (Budget.bytes cancel 1)
  match value with
  | none => return none
  | some value => return some (← encodeValue value)

def encodeTyValue (value : Ty) : UpdateM WireType :=
  encodeLeaf serializer cancel (checkTy cancel value) (encodeTy encoding cancel value) .ty

def ConcreteFunctionIdentity.encodeValue (value : ConcreteFunctionIdentity) : UpdateM ConcreteFunctionIdentityRecord :=
  encodeLeaf serializer cancel (value.checkLeaf cancel) (value.encode encoding cancel) .identity

def GenericBody.encodeValue (value : GenericBody) : UpdateM GenericBodyRecord :=
  encodeLeaf serializer cancel (value.checkLeaf cancel) (value.encode encoding cancel) .generic

def SharedCall.encodeValue (value : SharedCall) : UpdateM SharedCallRecord :=
  encodeLeaf serializer cancel (value.checkLeaf cancel) (value.encode encoding cancel) .shared

def InterfaceCallContract.encodeValue (value : InterfaceCallContract) : UpdateM InterfaceCallContractRecord :=
  encodeLeaf serializer cancel (value.checkLeaf cancel) (value.encode encoding cancel) .interface

def NativeImport.encodeValue (value : NativeImport) : UpdateM NativeImportRecord :=
  encodeLeaf serializer cancel (value.checkLeaf cancel) (value.encode encoding cancel) .native

def OperationWitness.encodeValue (value : OperationWitness) : UpdateM EvidenceRecord :=
  encodeLeaf serializer cancel (value.checkLeaf cancel) (value.encode encoding cancel) .evidence

def ConstructionWitness.encodeValue (value : ConstructionWitness) : UpdateM EvidenceRecord :=
  encodeLeaf serializer cancel (value.checkLeaf cancel) (value.encode encoding cancel) .evidence

def UnknownReason.encodeValue (value : UnknownReason) : UpdateM UnknownReason := do
  charged (Budget.bytes cancel (serializer.serializedSize (.reason value)))
  return value

def BodyApplication.encodeValue (value : BodyApplication) : UpdateM BodyApplicationWire :=
  if value.arguments.length > maxNested then throw .limitExceeded
  else do
    charged (Budget.records cancel 1)
    let body ← value.body.encodeValue serializer encoding cancel
    let arguments ← encodeVec cancel (encodeTyValue serializer encoding cancel) value.arguments
    return ⟨body, arguments⟩

def CallRequirement.encodeValue (value : CallRequirement) : UpdateM CallRequirementWire := do
  charged (Budget.records cancel 1)
  charged (Budget.bytes cancel 4)
  match value with
  | .direct inst => return .direct (← inst.encodeValue serializer encoding cancel)
  | .shared call => return .shared (← call.encodeValue serializer encoding cancel)
  | .interface call => return .interface (← call.encodeValue serializer encoding cancel)
  | .retainedBody application => return .retainedBody (← application.encodeValue serializer encoding cancel)
  | .native imported => return .native (← imported.encodeValue serializer encoding cancel)
  | .operation witness => return .operation (← witness.encodeValue serializer encoding cancel)
  | .construction witness => return .construction (← witness.encodeValue serializer encoding cancel)
  | .layout ty => return .layout (← encodeTyValue serializer encoding cancel ty)
  | .unknown reason => return .unknown (← reason.encodeValue serializer cancel)

def BodyRequirement.encodeValue (value : BodyRequirement) : UpdateM BodyRequirementWire :=
  if value.calls.length > maxNested then throw .limitExceeded
  else do
    charged (Budget.records cancel 1)
    let origin ← value.origin.encodeValue serializer encoding cancel
    let generic ← encodeOption cancel (fun generic : GenericBody => generic.encodeValue serializer encoding cancel)
      value.generic
    let calls ← encodeVec cancel (fun call : CallRequirement => call.encodeValue serializer encoding cancel) value.calls
    return ⟨origin, generic, calls⟩

/-- `application_key`. -/
def BodyApplication.key (value : BodyApplication) : UpdateM K := do
  let record ← value.encodeValue serializer encoding cancel
  return serializer.serialize (.application record)

/-- `body_key`. -/
def BodyRequirement.key (value : BodyRequirement) : UpdateM K := do
  let record ← value.encodeValue serializer encoding cancel
  return serializer.serialize (.body record)

/-- `call_key`. -/
def CallRequirement.key (value : CallRequirement) : UpdateM K := do
  let record ← value.encodeValue serializer encoding cancel
  return serializer.serialize (.call record)

end Encode

/-! ## Keys tell records apart -/

section TellsApart

variable {K α β ρ : Type} {serializer : Serializer K} {encoding : DefinitionEncoding} {cancel : CancellationToken}
  {E : UpdateError → Prop} {C P : Prop} {D : α → Prop} (hcanc : cancel = true → E .cancelled)
  (hlim : E .limitExceeded)

include hcanc hlim

theorem charged_stops {m : Charged cancel α} : Stops E (charged m) := by
  rintro e ⟨budget, he⟩
  change (m.run budget).mapError Stopped.update = .error e at he
  cases hm : m.run budget with
  | ok out =>
    rw [hm] at he
    cases he
  | error stopped =>
    rw [hm] at he
    rw [← Except.error.inj he]
    cases stopped with
    | cancelled hset => exact hcanc hset
    | limitExceeded => exact hlim

theorem charged_reveals {m m' : Charged cancel β} {x x' : UpdateM ρ} (h : Reveals E C x x' P) :
    Reveals E C (do let _ ← charged m; x) (do let _ ← charged m'; x') P :=
  .seq (charged_stops hcanc hlim) (charged_stops hcanc hlim) h

theorem encodeLeaf_tellsApart {check : α → Charged cancel Unit} {encode : α → Except DefinitionMappingError ρ}
    {record : ρ → Serializable} (h : TellsApart (fun e => E (.ofMapping e)) D encode) :
    TellsApart E D fun a => encodeLeaf serializer cancel (check a) (encode a) record :=
  fun a a' ha ha' => charged_reveals hcanc hlim (charged_reveals hcanc hlim
    (.bind (.lift (h a a' ha ha').mapError) fun _ _ => charged_reveals hcanc hlim (.pure fun hc => hc.2)))

theorem encodeVec_tellsApart {encodeValue : α → UpdateM ρ} (h : TellsApart E D encodeValue) :
    TellsApart E (fun values => ∀ a ∈ values, D a) (encodeVec cancel encodeValue) :=
  fun values values' hv hv' => .guarded hlim (charged_reveals hcanc hlim
    (charged_reveals hcanc hlim (h.mapM values values' hv hv')))

theorem encodeOption_tellsApart {encodeValue : α → UpdateM ρ} (h : TellsApart E D encodeValue) :
    TellsApart E (fun value => ∀ a ∈ value, D a) (encodeOption cancel encodeValue) := by
  intro value value' hv hv'
  have hval := h.optional value value' hv hv'
  cases value <;> cases value' <;> exact charged_reveals hcanc hlim hval

theorem encodeTyValue_tellsApart :
    TellsApart E (fun t => t.Ordered ∧ Stops (fun e => E (.ofMapping e)) (encodeTy encoding cancel t))
      (encodeTyValue serializer encoding cancel) :=
  encodeLeaf_tellsApart hcanc hlim encodeTy_tellsApart

theorem ConcreteFunctionIdentity.encodeValue_tellsApart :
    TellsApart E (fun value : ConcreteFunctionIdentity =>
      AllParts (Part.Good encoding cancel fun e => E (.ofMapping e)) value.parts)
      fun value => value.encodeValue serializer encoding cancel :=
  encodeLeaf_tellsApart hcanc hlim (encode_tellsApart hcanc)

theorem BodyApplication.encodeValue_tellsApart :
    TellsApart E (fun value : BodyApplication =>
      AllParts (Part.Good encoding cancel fun e => E (.ofMapping e)) value.parts)
      fun value => value.encodeValue serializer encoding cancel := by
  rintro ⟨body, arguments⟩ ⟨body', arguments'⟩ h h'
  simp only [parts, allParts_append, allParts_map, Part.good_ty] at h h'
  refine .guarded hlim (charged_reveals hcanc hlim
    (.bind (ConcreteFunctionIdentity.encodeValue_tellsApart hcanc hlim _ _ h.1 h'.1) fun b b' =>
    .bind (encodeVec_tellsApart hcanc hlim (encodeTyValue_tellsApart hcanc hlim) _ _ h.2 h'.2) fun ts ts' =>
    .pure ?_))
  rintro ⟨⟨-, hb⟩, hts⟩
  simp [hb, hts]

/-- The variants, in the order of the source. -/
def CallRequirement.kind : CallRequirement → Nat
  | .direct _ => 0
  | .shared _ => 1
  | .interface _ => 2
  | .retainedBody _ => 3
  | .native _ => 4
  | .operation _ => 5
  | .construction _ => 6
  | .layout _ => 7
  | .unknown _ => 8

def CallRequirementWire.kind : CallRequirementWire → Nat
  | .direct _ => 0
  | .shared _ => 1
  | .interface _ => 2
  | .retainedBody _ => 3
  | .native _ => 4
  | .operation _ => 5
  | .construction _ => 6
  | .layout _ => 7
  | .unknown _ => 8

omit hcanc hlim in
/-- The wire form is of the same variant. -/
theorem CallRequirement.encodeValue_kind (value : CallRequirement) :
    Ensures (value.encodeValue serializer encoding cancel) (·.kind = value.kind) := by
  refine .seq (.seq ?_)
  cases value <;> exact .bind .any fun r _ => .pure rfl

theorem CallRequirement.encodeValue_tellsApart :
    TellsApart E (fun value : CallRequirement =>
      AllParts (Part.Good encoding cancel fun e => E (.ofMapping e)) value.parts)
      fun value => value.encodeValue serializer encoding cancel := by
  have hsame {value value' : CallRequirement} (hkind : value.kind = value'.kind)
      (h : AllParts (Part.Good encoding cancel fun e => E (.ofMapping e)) value.parts)
      (h' : AllParts (Part.Good encoding cancel fun e => E (.ofMapping e)) value'.parts) :
      Reveals E True (value.encodeValue serializer encoding cancel) (value'.encodeValue serializer encoding cancel)
        (value = value') := by
    refine charged_reveals hcanc hlim (charged_reveals hcanc hlim ?_)
    cases value <;> cases value' <;> try (cases hkind; done)
    case direct.direct =>
      exact .map (ConcreteFunctionIdentity.encodeValue_tellsApart hcanc hlim _ _ h h') fun r r' hr => by simp [hr]
    case shared.shared =>
      exact .map (encodeLeaf_tellsApart hcanc hlim (SharedCall.encode_tellsApart hcanc hlim) _ _ h h')
        fun r r' hr => by simp [hr]
    case interface.interface =>
      exact .map
        (encodeLeaf_tellsApart hcanc hlim (InterfaceCallContract.encode_tellsApart hcanc hlim) _ _ h h')
        fun r r' hr => by simp [hr]
    case retainedBody.retainedBody =>
      exact .map (BodyApplication.encodeValue_tellsApart hcanc hlim _ _ h h') fun r r' hr => by simp [hr]
    case native.native =>
      exact .map (encodeLeaf_tellsApart hcanc hlim (NativeImport.encode_tellsApart hcanc hlim) _ _ h h')
        fun r r' hr => by simp [hr]
    case operation.operation =>
      exact .map (encodeLeaf_tellsApart hcanc hlim (OperationWitness.encode_tellsApart hcanc hlim) _ _ h h')
        fun r r' hr => by simp [hr]
    case construction.construction =>
      exact .map (encodeLeaf_tellsApart hcanc hlim (ConstructionWitness.encode_tellsApart hcanc hlim) _ _ h h')
        fun r r' hr => by simp [hr]
    case layout.layout =>
      simp only [parts, allParts_cons, allParts_nil, and_true, Part.good_ty] at h h'
      exact .map (encodeTyValue_tellsApart hcanc hlim _ _ h h') fun r r' hr => by simp [hr]
    case unknown.unknown reason reason' =>
      have hreason : Reveals E True (reason.encodeValue serializer cancel) (reason'.encodeValue serializer cancel)
          (reason = reason') := charged_reveals hcanc hlim (.pure fun _ => .rfl)
      exact .map hreason fun r r' hr => by simp [hr]
  intro value value' h h'
  by_cases hkind : value.kind = value'.kind
  · exact hsame hkind h h'
  · refine ⟨(hsame rfl h h).left, (hsame rfl h' h').left, ?_⟩
    rintro - r r' ⟨s, t, hr⟩ ⟨s', t', hr'⟩
    have hk := encodeValue_kind value s r t hr
    have hk' := encodeValue_kind value' s' r' t' hr'
    refine iff_of_false (fun heq => hkind ?_) fun heq => hkind (congrArg kind heq)
    rw [← hk, ← hk', heq]

theorem BodyRequirement.encodeValue_tellsApart :
    TellsApart E (fun value : BodyRequirement =>
      AllParts (Part.Good encoding cancel fun e => E (.ofMapping e)) value.parts)
      fun value => value.encodeValue serializer encoding cancel := by
  rintro ⟨origin, generic, calls⟩ ⟨origin', generic', calls'⟩ h h'
  simp only [parts, allParts_append, allParts_flatMap, Option.mem_toList] at h h'
  refine .guarded hlim (charged_reveals hcanc hlim
    (.bind (ConcreteFunctionIdentity.encodeValue_tellsApart hcanc hlim _ _ h.1.1 h'.1.1) fun o o' =>
    .bind (encodeOption_tellsApart hcanc hlim
      (encodeLeaf_tellsApart hcanc hlim (GenericBody.encode_tellsApart hcanc)) _ _ h.1.2 h'.1.2) fun g g' =>
    .bind (encodeVec_tellsApart hcanc hlim (CallRequirement.encodeValue_tellsApart hcanc hlim) _ _ h.2 h'.2)
      fun cs cs' => .pure ?_))
  rintro ⟨⟨⟨-, ho⟩, hg⟩, hcs⟩
  simp [ho, hg, hcs]

variable (hinj : serializer.Injective)

include hinj

/-- Two applications get the same key exactly when they are equal. -/
theorem BodyApplication.key_tellsApart :
    TellsApart E (fun value : BodyApplication =>
      AllParts (Part.Good encoding cancel fun e => E (.ofMapping e)) value.parts)
      fun value => value.key serializer encoding cancel :=
  fun value value' h h' => .map (encodeValue_tellsApart hcanc hlim value value' h h') fun _ _ hr =>
    hinj.application.eq_iff.trans hr

theorem BodyRequirement.key_tellsApart :
    TellsApart E (fun value : BodyRequirement =>
      AllParts (Part.Good encoding cancel fun e => E (.ofMapping e)) value.parts)
      fun value => value.key serializer encoding cancel :=
  fun value value' h h' => .map (encodeValue_tellsApart hcanc hlim value value' h h') fun _ _ hr =>
    hinj.body.eq_iff.trans hr

theorem CallRequirement.key_tellsApart :
    TellsApart E (fun value : CallRequirement =>
      AllParts (Part.Good encoding cancel fun e => E (.ofMapping e)) value.parts)
      fun value => value.key serializer encoding cancel :=
  fun value value' h h' => .map (encodeValue_tellsApart hcanc hlim value value' h h') fun _ _ hr =>
    hinj.call.eq_iff.trans hr

end TellsApart

end Kagari.Updates
