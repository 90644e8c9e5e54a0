import Kagari.Lib.Codes
import Kagari.Updates.Keys

/-!
# Fixed-width little-endian bytes of demand records

The layout that `canonical_key` and `size` (`kagari-contract/src/updates/wire.rs`, `wire/values.rs`) ask the
serializer for: fields in the order of the source, the number of a variant in four bytes, the length of a
vector in eight. Every record type has a prefix code, so the keys are injective (`bincode_injective`).
-/

namespace Kagari.Updates

open Lib

/-! ## Types -/

def u32Code : Code Nat := .fixed 3

def u64Code : Code Nat := .fixed 7

def refCode : Code PortableDefinitionRef := u32Code.comap Fin.val Fin.val_injective

def builtinCode : Code BuiltinType :=
  u32Code.comap BuiltinType.ctorIdx (Function.LeftInverse.injective BuiltinType.ofNat_ctorIdx)

def rangeKindCode : Code RangeKind :=
  u32Code.comap RangeKind.ctorIdx (Function.LeftInverse.injective RangeKind.ofNat_ctorIdx)

def collectionAccessCode : Code CollectionAccess :=
  u32Code.comap CollectionAccess.ctorIdx (Function.LeftInverse.injective CollectionAccess.ofNat_ctorIdx)

def referenceAccessCode : Code ReferenceAccess :=
  u32Code.comap ReferenceAccess.ctorIdx (Function.LeftInverse.injective ReferenceAccess.ofNat_ctorIdx)

/-- The fields of each variant of a node. -/
abbrev NodeFields : Nat → Type
  | 0 | 1 => PortableDefinitionRef
  | 2 => PortableDefinitionRef × Nat
  | 3 => BuiltinType
  | 4 | 5 => Nat
  | 7 => RangeKind
  | 9 | 10 => CollectionAccess
  | 11 | 12 | 13 => PortableDefinitionRef × Nat
  | 14 => PortableDefinitionRef × Nat × List PortableDefinitionRef
  | 15 => Nat × PortableDefinitionRef × PortableDefinitionRef × Nat × List PortableDefinitionRef
  | 16 => ReferenceAccess
  | _ => Unit

def nodeFieldsCode : ∀ i, Code (NodeFields i)
  | 0 | 1 => refCode
  | 2 => refCode.pair u64Code
  | 3 => builtinCode
  | 4 | 5 => u32Code
  | 7 => rangeKindCode
  | 9 | 10 => collectionAccessCode
  | 11 | 12 | 13 => refCode.pair u32Code
  | 14 => refCode.pair (u32Code.pair refCode.list)
  | 15 => u32Code.pair (refCode.pair (refCode.pair (u32Code.pair refCode.list)))
  | 16 => referenceAccessCode
  | 6 | 8 => .unit
  | _ + 17 => .unit

def nodeFields : WireNode → Σ i, NodeFields i
  | .host id => ⟨0, id⟩
  | .selfType id => ⟨1, id⟩
  | .parameter owner position => ⟨2, owner, position⟩
  | .builtin ty => ⟨3, ty⟩
  | .tuple count => ⟨4, count⟩
  | .function count => ⟨5, count⟩
  | .iter => ⟨6, ()⟩
  | .range kind => ⟨7, kind⟩
  | .array => ⟨8, ()⟩
  | .map access => ⟨9, access⟩
  | .set access => ⟨10, access⟩
  | .struct id count => ⟨11, id, count⟩
  | .nativeObject id count => ⟨12, id, count⟩
  | .enum id count => ⟨13, id, count⟩
  | .trait id count bindings => ⟨14, id, count, bindings⟩
  | .projection memberArguments member owner arguments bindings =>
    ⟨15, memberArguments, member, owner, arguments, bindings⟩
  | .reference access => ⟨16, access⟩

def nodeCode : Code WireNode := Code.enum nodeFieldsCode nodeFields

def tyCode : Code WireType := nodeCode.list.comap WireType.nodes fun _ _ => WireType.ext

/-! ## Records of the leaves -/

def nominalCode : Code NominalTyRecord :=
  (refCode.pair (tyCode.list.pair (refCode.pair tyCode).list)).comap
    (fun r => (r.declaration, r.arguments, r.associatedTypes))

def identityCode : Code ConcreteFunctionIdentityRecord :=
  (refCode.pair tyCode.list).comap (fun r => (r.declaration, r.arguments))

def signatureCode : Code SignatureRecord :=
  (tyCode.list.pair tyCode).comap (fun r => (r.params, r.result))

def nativeDefaultCode : Code NativeDefaultApplicationRecord :=
  (refCode.pair tyCode.list).comap (fun r => (r.declaration, r.arguments))

abbrev ImplementationFields : Nat → Type
  | 2 => PortableDefinitionRef
  | 3 => NativeDefaultApplicationRecord
  | _ => Unit

def implementationFieldsCode : ∀ i, Code (ImplementationFields i)
  | 0 | 1 => .unit
  | 2 => refCode
  | 3 => nativeDefaultCode
  | _ + 4 => .unit

def implementationFields : CallableImplementationRecord → Σ i, ImplementationFields i
  | .required => ⟨0, ()⟩
  | .script => ⟨1, ()⟩
  | .native id => ⟨2, id⟩
  | .nativeDefault value => ⟨3, value⟩

def implementationCode : Code CallableImplementationRecord :=
  Code.enum implementationFieldsCode implementationFields

def requirementCode : Code NativeCallableRequirementRecord :=
  (tyCode.pair (nominalCode.pair (refCode.pair tyCode.list))).comap
    (fun r => (r.receiver, r.interface, r.member, r.arguments))

def originCode : Code NativeCallableOrigin :=
  u32Code.comap NativeCallableOrigin.ctorIdx (Function.LeftInverse.injective NativeCallableOrigin.ofNat_ctorIdx)

def effectsCode : Code EffectSet :=
  (Code.bool.pair (Code.bool.pair (Code.bool.pair (Code.bool.pair (Code.bool.pair (Code.bool.pair (Code.bool.pair
    (Code.bool.pair (Code.bool.pair (Code.bool.pair (Code.bool.pair (Code.bool.pair Code.bool)))))))))))).comap
    (fun e => (e.readsLocal, e.writesLocal, e.readsModule, e.writesModule, e.readsAggregate, e.writesAggregate,
      e.readsPath, e.writesPath, e.allocates, e.calls, e.touchesRuntime, e.mayTrap, e.maySuspend))

def applicationCode : Code NativeCallableApplicationRecord :=
  (originCode.pair (requirementCode.pair (identityCode.pair (implementationCode.pair
    (signatureCode.pair effectsCode))))).comap
    (fun r => (r.origin, r.requirement, r.inst, r.implementation, r.signature, r.effects))

def genericParamCode : Code GenericParamRecord :=
  (refCode.pair u64Code).comap (fun r => (r.owner, r.position))

def genericBoundCode : Code GenericBoundRecord :=
  (tyCode.pair nominalCode.list).comap (fun r => (r.ty, r.constraints))

def genericBodyCode : Code GenericBodyRecord :=
  (genericParamCode.list.pair genericBoundCode.list).comap (fun r => (r.parameters, r.bounds))

def entryCode : Code SharedCallEntryRecord :=
  (referenceAccessCode.option.pair
    (identityCode.pair (implementationCode.pair (tyCode.list.pair signatureCode)))).comap
    (fun r => (r.receiverAccess, r.inst, r.implementation, r.arguments, r.signature))

def constructionRequirementCode : Code ConstructionRequirementRecord :=
  (tyCode.pair nominalCode).comap (fun r => (r.receiver, r.interface))

def normalizationCode : Code TypeNormalizationRecord :=
  (tyCode.pair tyCode).comap (fun r => (r.source, r.result))

def resultAdapterCode : Code NativeResultAdapterRecord :=
  (tyCode.pair identityCode).comap (fun r => (r.receiver, r.implementation))

/-! ## Evidence -/

def sharedMethodCode : Code SharedMethodWitnessRecord :=
  (requirementCode.pair identityCode).comap (fun r => (r.requirement, r.implementation))

abbrev SelectionFields : Nat → Type
  | 0 => ConcreteFunctionIdentityRecord × Nat × Nat
  | _ => Unit

def selectionFieldsCode : ∀ i, Code (SelectionFields i)
  | 0 => identityCode.pair (u32Code.pair u32Code)
  | _ + 1 => .unit

def selectionFields : SelectionRecord → Σ i, SelectionFields i
  | .declared implementation operations constructions => ⟨0, implementation, operations, constructions⟩
  | .interface => ⟨1, ()⟩
  | .forward => ⟨2, ()⟩

def selectionCode : Code SelectionRecord :=
  Code.enum selectionFieldsCode selectionFields

abbrev EvidenceFields : Nat → Type
  | 0 => NativeCallableApplicationRecord
  | 1 => SharedMethodWitnessRecord × Nat × Nat
  | 2 => NativeCallableRequirementRecord
  | 3 => NativeCallableRequirementRecord × SharedCallEntryRecord × Nat × Nat
  | 4 => ConstructionRequirementRecord × SelectionRecord
  | _ => Unit

def evidenceFieldsCode : ∀ i, Code (EvidenceFields i)
  | 0 => applicationCode
  | 1 => sharedMethodCode.pair (u32Code.pair u32Code)
  | 2 => requirementCode
  | 3 => requirementCode.pair (entryCode.pair (u32Code.pair u32Code))
  | 4 => constructionRequirementCode.pair selectionCode
  | _ + 5 => .unit

def evidenceFields : EvidenceNode → Σ i, EvidenceFields i
  | .selected value => ⟨0, value⟩
  | .sharedMethod entry operations constructions => ⟨1, entry, operations, constructions⟩
  | .forward value => ⟨2, value⟩
  | .sharedAdapter requirement entry operations constructions => ⟨3, requirement, entry, operations, constructions⟩
  | .construction requirement selection => ⟨4, requirement, selection⟩

def evidenceCode : Code EvidenceRecord :=
  (Code.enum evidenceFieldsCode evidenceFields).list.comap EvidenceRecord.nodes

/-! ## Demands -/

def sharedCallCode : Code SharedCallRecord :=
  (entryCode.pair (evidenceCode.list.pair evidenceCode.list)).comap
    (fun r => (r.entry, r.operations, r.constructions))

def interfaceCallCode : Code InterfaceCallContractRecord :=
  (normalizationCode.list.pair (tyCode.option.pair (evidenceCode.list.pair (evidenceCode.list.pair
    (nominalCode.pair (u32Code.pair tyCode.list)))))).comap
    (fun r => (r.normalizations, r.receiver, r.operations, r.constructions, r.interface, r.methodSlot, r.arguments))

def nativeImportCode : Code NativeImportRecord :=
  (referenceAccessCode.option.pair (resultAdapterCode.option.pair (genericBodyCode.option.pair (identityCode.pair
    (refCode.pair (signatureCode.pair (genericBoundCode.list.pair evidenceCode.list))))))).comap
    (fun r => (r.receiverAccess, r.resultAdapter, r.generic, r.inst, r.binding, r.signature, r.requirements,
      r.callables))

def bodyApplicationCode : Code BodyApplicationWire :=
  (identityCode.pair tyCode.list).comap (fun r => (r.body, r.arguments))

def reasonCode : Code UnknownReason :=
  u32Code.comap UnknownReason.ctorIdx (Function.LeftInverse.injective UnknownReason.ofNat_ctorIdx)

abbrev CallFields : Nat → Type
  | 0 => ConcreteFunctionIdentityRecord
  | 1 => SharedCallRecord
  | 2 => InterfaceCallContractRecord
  | 3 => BodyApplicationWire
  | 4 => NativeImportRecord
  | 5 | 6 => EvidenceRecord
  | 7 => WireType
  | 8 => UnknownReason
  | _ => Unit

def callFieldsCode : ∀ i, Code (CallFields i)
  | 0 => identityCode
  | 1 => sharedCallCode
  | 2 => interfaceCallCode
  | 3 => bodyApplicationCode
  | 4 => nativeImportCode
  | 5 | 6 => evidenceCode
  | 7 => tyCode
  | 8 => reasonCode
  | _ + 9 => .unit

def callFields : CallRequirementWire → Σ i, CallFields i
  | .direct inst => ⟨0, inst⟩
  | .shared call => ⟨1, call⟩
  | .interface call => ⟨2, call⟩
  | .retainedBody application => ⟨3, application⟩
  | .native imported => ⟨4, imported⟩
  | .operation witness => ⟨5, witness⟩
  | .construction witness => ⟨6, witness⟩
  | .layout ty => ⟨7, ty⟩
  | .unknown reason => ⟨8, reason⟩

def callCode : Code CallRequirementWire := Code.enum callFieldsCode callFields

def bodyCode : Code BodyRequirementWire :=
  (identityCode.pair (genericBodyCode.option.pair callCode.list)).comap (fun r => (r.origin, r.generic, r.calls))

/-- The bytes of a record. -/
def serializedBytes : Serializable → List Nat
  | .ty value => tyCode.write value
  | .identity value => identityCode.write value
  | .generic value => genericBodyCode.write value
  | .shared value => sharedCallCode.write value
  | .interface value => interfaceCallCode.write value
  | .native value => nativeImportCode.write value
  | .evidence value => evidenceCode.write value
  | .reason value => reasonCode.write value
  | .application value => bodyApplicationCode.write value
  | .body value => bodyCode.write value
  | .call value => callCode.write value

def bincode : Serializer (List Nat) where
  serialize := serializedBytes
  serializedSize record := (serializedBytes record).length

/-- Records of one type have the same bytes only if they are equal. -/
theorem bincode_injective : bincode.Injective where
  application := bodyApplicationCode.injective
  body := bodyCode.injective
  call := callCode.injective

end Kagari.Updates
