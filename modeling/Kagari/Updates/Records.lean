import Kagari.Contract.Effects
import Kagari.Types.Bounds
import Kagari.Types.Matching

/-!
# Demand records

The records of a demand envelope (`kagari-contract/src/updates.rs`) and what they are made of:
`kagari-contract/src/callable/*.rs`, `native_import.rs`, `kagari-types/src/callable.rs`.

- `OperationWitness` and `ConstructionWitness`: mutually dependent evidence; `EvidenceRef` is a node of
  either kind, with its `kids`
- `Part`: what a record names, in the order in which its definitions are visited

A `SharedCall` without its witnesses is a `SharedCallEntry`, as in the wire form; a shared adapter holds
the entry and the witnesses of its call. `inst` is the source's `instance`.
-/

namespace Kagari.Updates

open List

structure ConcreteFunctionIdentity where
  declaration : DefinitionId
  arguments : List Ty
deriving DecidableEq

structure Signature where
  params : List Ty
  result : Ty

structure NativeDefaultApplication where
  declaration : DefinitionId
  arguments : List Ty

inductive CallableImplementation where
  | required
  | script
  | native (id : DefinitionId)
  | nativeDefault (value : NativeDefaultApplication)

structure NativeCallableRequirement where
  receiver : Ty
  interface : NominalTy
  member : DefinitionId
  arguments : List Ty

inductive NativeCallableOrigin where
  | implementation | protocolAdapter
deriving DecidableEq

structure NativeCallableApplication where
  origin : NativeCallableOrigin
  requirement : NativeCallableRequirement
  inst : ConcreteFunctionIdentity
  implementation : CallableImplementation
  signature : Signature
  effects : EffectSet

structure GenericBody where
  parameters : List GenericParam
  bounds : List GenericBound

structure SharedCallEntry where
  receiverAccess : Option ReferenceAccess
  inst : ConcreteFunctionIdentity
  implementation : CallableImplementation
  arguments : List Ty
  signature : Signature

structure ConstructionRequirement where
  receiver : Ty
  interface : NominalTy

mutual

inductive OperationWitness where
  | selected (call : NativeCallableApplication)
  | sharedMethod (requirement : NativeCallableRequirement) (implementation : ConcreteFunctionIdentity)
      (operations : List OperationWitness) (constructions : List ConstructionWitness)
  | sharedAdapter (requirement : NativeCallableRequirement) (entry : SharedCallEntry)
      (operations : List OperationWitness) (constructions : List ConstructionWitness)
  | forward (requirement : NativeCallableRequirement)

inductive ConstructionWitness where
  | mk (requirement : ConstructionRequirement) (selection : ConstructionSelection)

inductive ConstructionSelection where
  | declared (implementation : ConcreteFunctionIdentity) (operations : List OperationWitness)
      (constructions : List ConstructionWitness)
  | interface
  | forward

end

structure SharedCall extends SharedCallEntry where
  operations : List OperationWitness
  constructions : List ConstructionWitness

structure TypeNormalization where
  source : Ty
  result : Ty

structure InterfaceCallContract where
  constructions : List ConstructionWitness
  normalizations : List TypeNormalization
  receiver : Option Ty
  operations : List OperationWitness
  interface : NominalTy
  methodSlot : Nat
  arguments : List Ty

structure NativeResultAdapter where
  receiver : Ty
  implementation : ConcreteFunctionIdentity

structure NativeImport where
  receiverAccess : Option ReferenceAccess
  resultAdapter : Option NativeResultAdapter
  generic : Option GenericBody
  inst : ConcreteFunctionIdentity
  binding : DefinitionId
  signature : Signature
  requirements : List GenericBound
  callables : List OperationWitness

inductive UnknownReason where
  | functionValue | interfaceDispatch | nativeReentry
deriving DecidableEq

structure BodyApplication where
  body : ConcreteFunctionIdentity
  arguments : List Ty
deriving DecidableEq

inductive CallRequirement where
  | direct (inst : ConcreteFunctionIdentity)
  | shared (call : SharedCall)
  | interface (call : InterfaceCallContract)
  | retainedBody (application : BodyApplication)
  | native (imported : NativeImport)
  | operation (witness : OperationWitness)
  | construction (witness : ConstructionWitness)
  | layout (ty : Ty)
  | unknown (reason : UnknownReason)

structure BodyRequirement where
  origin : ConcreteFunctionIdentity
  generic : Option GenericBody
  calls : List CallRequirement

structure DemandEnvelope where
  applications : List BodyApplication := []
  bodies : List BodyRequirement := []
  requirements : List CallRequirement := []

/-! ## Evidence -/

/-- A node of the evidence, of either kind. -/
inductive EvidenceRef where
  | operation (witness : OperationWitness)
  | construction (witness : ConstructionWitness)

namespace EvidenceRef

def children : EvidenceRef → List OperationWitness × List ConstructionWitness
  | .operation (.sharedMethod _ _ operations constructions) => (operations, constructions)
  | .operation (.sharedAdapter _ _ operations constructions) => (operations, constructions)
  | .construction (.mk _ (.declared _ operations constructions)) => (operations, constructions)
  | _ => ([], [])

/-- The children in the order in which they leave the stack. -/
def kids (node : EvidenceRef) : List EvidenceRef :=
  node.children.1.map .operation ++ node.children.2.map .construction

private theorem sum_operations (l : List OperationWitness) :
    ((l.map EvidenceRef.operation).map sizeOf).sum < sizeOf l := by
  induction l with
  | nil => simp
  | cons a l ih =>
    simp only [map_cons, sum_cons, EvidenceRef.operation.sizeOf_spec, List.cons.sizeOf_spec]
    omega

private theorem sum_constructions (l : List ConstructionWitness) :
    ((l.map EvidenceRef.construction).map sizeOf).sum < sizeOf l := by
  induction l with
  | nil => simp
  | cons a l ih =>
    simp only [map_cons, sum_cons, EvidenceRef.construction.sizeOf_spec, List.cons.sizeOf_spec]
    omega

theorem sizeOf_kids (node : EvidenceRef) : (node.kids.map sizeOf).sum < sizeOf node := by
  have hsum : ∀ (operations : List OperationWitness) (constructions : List ConstructionWitness),
      ((operations.map EvidenceRef.operation ++ constructions.map EvidenceRef.construction).map sizeOf).sum <
        sizeOf operations + sizeOf constructions := by
    intro operations constructions
    have := sum_operations operations
    have := sum_constructions constructions
    rw [map_append, sum_append]
    omega
  unfold kids children
  split
  · rename_i operations constructions
    have := hsum operations constructions
    simp only [EvidenceRef.operation.sizeOf_spec, OperationWitness.sharedMethod.sizeOf_spec]
    omega
  · rename_i operations constructions
    have := hsum operations constructions
    simp only [EvidenceRef.operation.sizeOf_spec, OperationWitness.sharedAdapter.sizeOf_spec]
    omega
  · rename_i operations constructions
    have := hsum operations constructions
    simp only [EvidenceRef.construction.sizeOf_spec, ConstructionWitness.mk.sizeOf_spec,
      ConstructionSelection.declared.sizeOf_spec]
    omega
  · have : 0 < sizeOf node := by
      cases node <;> simp only [EvidenceRef.operation.sizeOf_spec, EvidenceRef.construction.sizeOf_spec] <;> omega
    simpa using this

theorem sizeOf_kid {node kid : EvidenceRef} (h : kid ∈ node.kids) : sizeOf kid < sizeOf node :=
  lt_of_le_of_lt (single_le_sum (by simp) _ (mem_map_of_mem h)) node.sizeOf_kids

end EvidenceRef

/-! ## Parts -/

/-- What a record names: a definition, or a type with the definitions in it. -/
inductive Part where
  | id (id : DefinitionId)
  | ty (ty : Ty)
  | nominal (nominal : NominalTy)

namespace Part

def definitions : Part → List DefinitionId
  | .id definition => [definition]
  | .ty t => t.definitions
  | .nominal n => Ty.definitionsNominal n

@[simp] theorem definitions_id (definition : DefinitionId) : (id definition).definitions = [definition] := rfl

@[simp] theorem definitions_ty (t : Ty) : (ty t).definitions = t.definitions := rfl

@[simp] theorem definitions_nominal (n : NominalTy) : (nominal n).definitions = Ty.definitionsNominal n := rfl

/-- The types of a part are within the wire limits. -/
def Limited : Part → Prop
  | .id _ => True
  | .ty t => t.withinWireLimits = true
  | .nominal n => ∀ kid ∈ n.kids, kid.withinWireLimits = true

end Part

def ConcreteFunctionIdentity.parts (value : ConcreteFunctionIdentity) : List Part :=
  .id value.declaration :: value.arguments.map .ty

def Signature.parts (value : Signature) : List Part := value.params.map .ty ++ [.ty value.result]

def NativeDefaultApplication.parts (value : NativeDefaultApplication) : List Part :=
  .id value.declaration :: value.arguments.map .ty

def CallableImplementation.parts : CallableImplementation → List Part
  | .required | .script => []
  | .native id => [.id id]
  | .nativeDefault value => value.parts

def NativeCallableRequirement.parts (value : NativeCallableRequirement) : List Part :=
  [.ty value.receiver, .nominal value.interface, .id value.member] ++ value.arguments.map .ty

def NativeCallableApplication.parts (value : NativeCallableApplication) : List Part :=
  value.requirement.parts ++ value.inst.parts ++ value.implementation.parts ++ value.signature.parts

def genericParamParts (value : GenericParam) : List Part := [.id value.owner]

def genericBoundParts (value : GenericBound) : List Part := .ty value.ty :: value.constraints.map .nominal

def GenericBody.parts (value : GenericBody) : List Part :=
  value.parameters.flatMap genericParamParts ++ value.bounds.flatMap genericBoundParts

def SharedCallEntry.parts (value : SharedCallEntry) : List Part :=
  value.inst.parts ++ value.implementation.parts ++ value.arguments.map .ty ++ value.signature.parts

def ConstructionRequirement.parts (value : ConstructionRequirement) : List Part :=
  [.ty value.receiver, .nominal value.interface]

variable {node : EvidenceRef}

namespace EvidenceRef

/-- The parts of one node. -/
def own : EvidenceRef → List Part
  | .operation (.selected call) => call.parts
  | .operation (.sharedMethod requirement implementation _ _) => requirement.parts ++ implementation.parts
  | .operation (.sharedAdapter requirement entry _ _) => requirement.parts ++ entry.parts
  | .operation (.forward requirement) => requirement.parts
  | .construction (.mk requirement (.declared implementation _ _)) => requirement.parts ++ implementation.parts
  | .construction (.mk requirement _) => requirement.parts

def parts (node : EvidenceRef) : List Part :=
  node.own ++ node.kids.attach.flatMap fun kid => parts kid.1
termination_by sizeOf node
decreasing_by exact sizeOf_kid kid.2

theorem mem_parts {part : Part} :
    part ∈ node.parts ↔ part ∈ node.own ∨ ∃ kid ∈ node.kids, part ∈ kid.parts := by
  rw [parts]
  simp

end EvidenceRef

def OperationWitness.parts (value : OperationWitness) : List Part := (EvidenceRef.operation value).parts

def ConstructionWitness.parts (value : ConstructionWitness) : List Part := (EvidenceRef.construction value).parts

def SharedCall.parts (value : SharedCall) : List Part :=
  value.constructions.flatMap (·.parts) ++ value.toSharedCallEntry.parts ++ value.operations.flatMap (·.parts)

def TypeNormalization.parts (value : TypeNormalization) : List Part := [.ty value.source, .ty value.result]

def InterfaceCallContract.parts (value : InterfaceCallContract) : List Part :=
  value.constructions.flatMap (·.parts) ++ value.normalizations.flatMap (·.parts) ++
    value.receiver.toList.map .ty ++ value.operations.flatMap (·.parts) ++ [.nominal value.interface] ++
    value.arguments.map .ty

def NativeResultAdapter.parts (value : NativeResultAdapter) : List Part :=
  .ty value.receiver :: value.implementation.parts

def NativeImport.parts (value : NativeImport) : List Part :=
  value.resultAdapter.toList.flatMap (·.parts) ++ value.generic.toList.flatMap (·.parts) ++ value.inst.parts ++
    [.id value.binding] ++ value.signature.parts ++ value.requirements.flatMap genericBoundParts ++
    value.callables.flatMap (·.parts)

def BodyApplication.parts (value : BodyApplication) : List Part := value.body.parts ++ value.arguments.map .ty

def CallRequirement.parts : CallRequirement → List Part
  | .direct inst => inst.parts
  | .shared call => call.parts
  | .interface call => call.parts
  | .retainedBody application => application.parts
  | .native imported => imported.parts
  | .operation witness => witness.parts
  | .construction witness => witness.parts
  | .layout ty => [.ty ty]
  | .unknown _ => []

def BodyRequirement.parts (value : BodyRequirement) : List Part :=
  value.origin.parts ++ value.generic.toList.flatMap (·.parts) ++ value.calls.flatMap (·.parts)

def DemandEnvelope.parts (value : DemandEnvelope) : List Part :=
  value.applications.flatMap (·.parts) ++ value.bodies.flatMap (·.parts) ++ value.requirements.flatMap (·.parts)

/-! ## Properties of all parts -/

def AllParts (P : Part → Prop) (parts : List Part) : Prop := ∀ part ∈ parts, P part

section AllParts

variable {P : Part → Prop} {part : Part} {parts parts' : List Part}

@[simp] theorem allParts_nil : AllParts P [] := nofun

@[simp] theorem allParts_cons : AllParts P (part :: parts) ↔ P part ∧ AllParts P parts := forall_mem_cons

@[simp] theorem allParts_append : AllParts P (parts ++ parts') ↔ AllParts P parts ∧ AllParts P parts' :=
  forall_mem_append

@[simp] theorem allParts_flatMap {α : Type} {f : α → List Part} {l : List α} :
    AllParts P (l.flatMap f) ↔ ∀ a ∈ l, AllParts P (f a) := by
  simp only [AllParts, mem_flatMap]
  grind

@[simp] theorem allParts_map {α : Type} {f : α → Part} {l : List α} :
    AllParts P (l.map f) ↔ ∀ a ∈ l, P (f a) := forall_mem_map

theorem EvidenceRef.allParts_iff :
    AllParts P node.parts ↔ AllParts P node.own ∧ ∀ kid ∈ node.kids, AllParts P kid.parts := by
  constructor
  · intro h
    exact ⟨fun part hpart => h part (mem_parts.mpr (.inl hpart)),
      fun kid hkid part hpart => h part (mem_parts.mpr (.inr ⟨kid, hkid, hpart⟩))⟩
  · rintro ⟨hown, hkids⟩ part hpart
    rcases mem_parts.mp hpart with hpart | ⟨kid, hkid, hpart⟩
    · exact hown part hpart
    · exact hkids kid hkid part hpart

end AllParts

end Kagari.Updates
