import Kagari.Lib.Collects
import Kagari.Updates.Budget

/-!
# Visiting definitions

`DefinitionReferences` of the demand records (`kagari-contract/src/updates/mapping.rs` and the `mapping`
modules of `callable` and `native_import`): a visitor is called with every definition that a record
names. A type is visited only within the wire limits.

A visit of a record sees exactly the definitions of its parts, and only where their types are within the
limits (`DemandEnvelope.visit_sees`).
-/

namespace Kagari.Updates

open Lib Collects List

/-! ## Types -/

section References

variable (cancel : CancellationToken)

/-- What the traversal pushes below a type. -/
def pushedTypes : Ty → List Ty
  | .projection arguments receiver interface _ =>
    receiver :: (arguments ++ interface.arguments ++ interface.associatedTypes.map Prod.snd)
  | ty => ty.kids

private theorem pushedTypes_perm (ty : Ty) : (pushedTypes ty).Perm ty.kids := by
  cases ty with
  | projection arguments receiver interface member =>
    refine List.Perm.cons _ ?_
    rw [append_assoc]
    exact perm_append_comm
  | _ => exact .refl _

private theorem nodes_pushedTypes (ty : Ty) : ((pushedTypes ty).map Ty.nodes).sum < ty.nodes := by
  rw [((pushedTypes_perm ty).map Ty.nodes).sum_eq, ty.nodes_eq]
  omega

def definitionReferencesLoop : List Ty → List DefinitionId → Except (Stopped cancel) (List DefinitionId)
  | [], references => .ok references
  | ty :: pending, references => do
    checked cancel
    definitionReferencesLoop ((pushedTypes ty).reverse ++ pending) (references ++ ty.heads)
termination_by pending => (pending.map Ty.nodes).sum
decreasing_by
  have := nodes_pushedTypes ty
  simp only [List.map_append, List.map_reverse, List.sum_append, List.sum_reverse, List.map_cons, List.sum_cons]
  omega

def definitionReferences (ty : Ty) : Except (Stopped cancel) (List DefinitionId) :=
  if !ty.withinWireLimits then .error .limitExceeded
  else definitionReferencesLoop cancel [ty] []

variable {cancel}

theorem definitionReferencesLoop_mem {pending : List Ty} : ∀ {references result : List DefinitionId},
    definitionReferencesLoop cancel pending references = .ok result → ∀ id,
      id ∈ result ↔ id ∈ references ∨ ∃ ty ∈ pending, id ∈ ty.definitions := by
  intro references
  fun_induction definitionReferencesLoop cancel pending references with
  | case1 references =>
    intro result h id
    cases h
    simp
  | case2 ty pending references ih =>
    intro result h id
    obtain ⟨_, -, h⟩ := bind_ok.mp h
    have hkids : ∀ k, k ∈ pushedTypes ty ↔ k ∈ ty.kids := fun k => (pushedTypes_perm ty).mem_iff
    rw [ih h id]
    simp only [mem_append, mem_cons, mem_reverse, hkids, or_and_right, exists_or, exists_eq_left,
      @Ty.mem_definitions ty, or_assoc]

/-- A type that is visited is within the wire limits, and its definitions are what is visited. -/
theorem definitionReferences_ok {ty : Ty} {references : List DefinitionId}
    (h : definitionReferences cancel ty = .ok references) :
    ty.withinWireLimits = true ∧ ∀ id, id ∈ references ↔ id ∈ ty.definitions := by
  unfold definitionReferences at h
  split at h
  · cases h
  · rename_i hlims
    refine ⟨by simpa using hlims, fun id => ?_⟩
    rw [definitionReferencesLoop_mem h id]
    simp

end References

/-! ## Records -/

section Visit

variable {σ : Type} (cancel : CancellationToken) (visit : DefinitionId → StateT σ (Except (Stopped cancel)) PUnit)

def visitTy (ty : Ty) : StateT σ (Except (Stopped cancel)) PUnit := do
  let references ← definitionReferences cancel ty
  references.forM visit

def visitNominal (nominal : NominalTy) : StateT σ (Except (Stopped cancel)) PUnit := do
  checked cancel
  visit nominal.declaration
  nominal.arguments.forM (visitTy cancel visit)
  nominal.associatedTypes.forM fun binding => do
    checked cancel
    visit binding.1
    visitTy cancel visit binding.2

def ConcreteFunctionIdentity.visitDefinitionIds (value : ConcreteFunctionIdentity) :
    StateT σ (Except (Stopped cancel)) PUnit := do
  checked cancel
  visit value.declaration
  value.arguments.forM (visitTy cancel visit)

def Signature.visitDefinitionIds (value : Signature) : StateT σ (Except (Stopped cancel)) PUnit := do
  checked cancel
  value.params.forM (visitTy cancel visit)
  visitTy cancel visit value.result

def NativeDefaultApplication.visitDefinitionIds (value : NativeDefaultApplication) :
    StateT σ (Except (Stopped cancel)) PUnit := do
  checked cancel
  visit value.declaration
  value.arguments.forM (visitTy cancel visit)

def CallableImplementation.visitDefinitionIds (value : CallableImplementation) :
    StateT σ (Except (Stopped cancel)) PUnit := do
  checked cancel
  match value with
  | .required => pure ()
  | .script => pure ()
  | .native id => do
    checked cancel
    visit id
  | .nativeDefault value => value.visitDefinitionIds cancel visit

def NativeCallableRequirement.visitDefinitionIds (value : NativeCallableRequirement) :
    StateT σ (Except (Stopped cancel)) PUnit := do
  checked cancel
  visitTy cancel visit value.receiver
  visitNominal cancel visit value.interface
  checked cancel
  visit value.member
  value.arguments.forM (visitTy cancel visit)

def NativeCallableApplication.visitDefinitionIds (value : NativeCallableApplication) :
    StateT σ (Except (Stopped cancel)) PUnit := do
  checked cancel
  value.requirement.visitDefinitionIds cancel visit
  value.inst.visitDefinitionIds cancel visit
  value.implementation.visitDefinitionIds cancel visit
  value.signature.visitDefinitionIds cancel visit

def visitGenericParam (value : GenericParam) : StateT σ (Except (Stopped cancel)) PUnit := do
  checked cancel
  visit value.owner

def visitGenericBound (value : GenericBound) : StateT σ (Except (Stopped cancel)) PUnit := do
  checked cancel
  visitTy cancel visit value.ty
  value.constraints.forM (visitNominal cancel visit)

def GenericBody.visitDefinitionIds (value : GenericBody) : StateT σ (Except (Stopped cancel)) PUnit := do
  checked cancel
  value.parameters.forM (visitGenericParam cancel visit)
  value.bounds.forM (visitGenericBound cancel visit)

def ConstructionRequirement.visitDefinitionIds (value : ConstructionRequirement) :
    StateT σ (Except (Stopped cancel)) PUnit := do
  checked cancel
  visitTy cancel visit value.receiver
  visitNominal cancel visit value.interface

/-- `SharedCall::visit_definition_ids` between the constructions and the operations. -/
def SharedCallEntry.visitDefinitionIds (value : SharedCallEntry) : StateT σ (Except (Stopped cancel)) PUnit := do
  value.inst.visitDefinitionIds cancel visit
  value.implementation.visitDefinitionIds cancel visit
  value.arguments.forM (visitTy cancel visit)
  value.signature.visitDefinitionIds cancel visit

private theorem sum_sizeOf_lt (l : List ConstructionWitness) : (l.map sizeOf).sum < sizeOf l := by
  induction l with
  | nil => simp
  | cons a l ih =>
    simp only [map_cons, sum_cons, List.cons.sizeOf_spec]
    omega

mutual

def OperationWitness.visitDefinitionIds (value : OperationWitness) : StateT σ (Except (Stopped cancel)) PUnit := do
  checked cancel
  (EvidenceRef.operation value).checkShape cancel
  match value with
  | .sharedAdapter requirement entry operations constructions => do
    requirement.visitDefinitionIds cancel visit
    checked cancel
    constructions.attach.forM fun construction => construction.1.visitDefinitionIds
    entry.visitDefinitionIds cancel visit
    operations.attach.forM fun operation => operation.1.visitDefinitionIds
  | .selected call => call.visitDefinitionIds cancel visit
  | .sharedMethod requirement implementation operations constructions => do
    checked cancel
    constructions.attach.forM fun construction => construction.1.visitDefinitionIds
    requirement.visitDefinitionIds cancel visit
    implementation.visitDefinitionIds cancel visit
    operations.attach.forM fun operation => operation.1.visitDefinitionIds
  | .forward requirement => requirement.visitDefinitionIds cancel visit
termination_by (sizeOf value, 0)
decreasing_by
  all_goals
    refine Prod.Lex.left _ _ ?_
    try have := List.sizeOf_lt_of_mem construction.2
    try have := List.sizeOf_lt_of_mem operation.2
    simp only [OperationWitness.sharedAdapter.sizeOf_spec, OperationWitness.sharedMethod.sizeOf_spec]
    omega

def ConstructionWitness.visitDefinitionIds (value : ConstructionWitness) :
    StateT σ (Except (Stopped cancel)) PUnit := do
  (EvidenceRef.construction value).checkShape cancel
  visitConstructions [value]
termination_by (sizeOf value, 1)
decreasing_by
  simp only [List.map_cons, List.map_nil, List.sum_cons, List.sum_nil, Nat.add_zero]
  exact Prod.Lex.right _ Nat.one_pos

/-- The loop over a construction and those below it. -/
def visitConstructions (pending : List ConstructionWitness) : StateT σ (Except (Stopped cancel)) PUnit :=
  match pending with
  | [] => pure ()
  | .mk requirement selection :: pending => do
    checked cancel
    requirement.visitDefinitionIds cancel visit
    match selection with
    | .declared implementation operations constructions => do
      implementation.visitDefinitionIds cancel visit
      operations.attach.forM fun operation => operation.1.visitDefinitionIds
      visitConstructions (constructions ++ pending)
    | _ => visitConstructions pending
termination_by ((pending.map sizeOf).sum, 0)
decreasing_by
  · have := List.sizeOf_lt_of_mem operation.2
    refine Prod.Lex.left _ _ ?_
    simp only [List.map_cons, List.sum_cons, ConstructionWitness.mk.sizeOf_spec,
      ConstructionSelection.declared.sizeOf_spec]
    omega
  · have := sum_sizeOf_lt constructions
    refine Prod.Lex.left _ _ ?_
    simp only [List.map_append, List.sum_append, List.map_cons, List.sum_cons, ConstructionWitness.mk.sizeOf_spec,
      ConstructionSelection.declared.sizeOf_spec]
    omega
  · refine Prod.Lex.left _ _ ?_
    simp only [List.map_cons, List.sum_cons, ConstructionWitness.mk.sizeOf_spec]
    omega

end

def SharedCall.visitDefinitionIds (value : SharedCall) : StateT σ (Except (Stopped cancel)) PUnit := do
  checked cancel
  value.constructions.forM fun construction => construction.visitDefinitionIds cancel visit
  value.toSharedCallEntry.visitDefinitionIds cancel visit
  value.operations.forM fun operation => operation.visitDefinitionIds cancel visit

def InterfaceCallContract.visitDefinitionIds (value : InterfaceCallContract) :
    StateT σ (Except (Stopped cancel)) PUnit := do
  checked cancel
  value.constructions.forM fun construction => construction.visitDefinitionIds cancel visit
  value.normalizations.forM fun fact => do
    visitTy cancel visit fact.source
    visitTy cancel visit fact.result
  value.receiver.toList.forM (visitTy cancel visit)
  value.operations.forM fun operation => operation.visitDefinitionIds cancel visit
  visitNominal cancel visit value.interface
  value.arguments.forM (visitTy cancel visit)

def NativeResultAdapter.visitDefinitionIds (value : NativeResultAdapter) :
    StateT σ (Except (Stopped cancel)) PUnit := do
  checked cancel
  visitTy cancel visit value.receiver
  value.implementation.visitDefinitionIds cancel visit

def NativeImport.visitDefinitionIds (value : NativeImport) : StateT σ (Except (Stopped cancel)) PUnit := do
  checked cancel
  value.resultAdapter.toList.forM fun adapter => adapter.visitDefinitionIds cancel visit
  value.generic.toList.forM fun generic => generic.visitDefinitionIds cancel visit
  value.inst.visitDefinitionIds cancel visit
  checked cancel
  visit value.binding
  value.signature.visitDefinitionIds cancel visit
  value.requirements.forM (visitGenericBound cancel visit)
  value.callables.forM fun operation => operation.visitDefinitionIds cancel visit

/-- `visit_value` of a vector. -/
def visitVec {α : Type} (visitValue : α → StateT σ (Except (Stopped cancel)) PUnit) (values : List α) :
    StateT σ (Except (Stopped cancel)) PUnit :=
  if values.length > 1000000 then throw .limitExceeded
  else values.forM fun value => do
    checked cancel
    visitValue value

def BodyApplication.visitDefinitionIds (value : BodyApplication) : StateT σ (Except (Stopped cancel)) PUnit := do
  checked cancel
  value.body.visitDefinitionIds cancel visit
  visitVec cancel (visitTy cancel visit) value.arguments

def CallRequirement.visitDefinitionIds (value : CallRequirement) : StateT σ (Except (Stopped cancel)) PUnit := do
  checked cancel
  match value with
  | .direct inst => inst.visitDefinitionIds cancel visit
  | .shared call => call.visitDefinitionIds cancel visit
  | .interface call => call.visitDefinitionIds cancel visit
  | .retainedBody application => application.visitDefinitionIds cancel visit
  | .native imported => imported.visitDefinitionIds cancel visit
  | .operation witness => witness.visitDefinitionIds cancel visit
  | .construction witness => witness.visitDefinitionIds cancel visit
  | .layout ty => visitTy cancel visit ty
  | .unknown _ => pure ()

def BodyRequirement.visitDefinitionIds (value : BodyRequirement) : StateT σ (Except (Stopped cancel)) PUnit := do
  checked cancel
  value.origin.visitDefinitionIds cancel visit
  value.generic.toList.forM fun generic => generic.visitDefinitionIds cancel visit
  visitVec cancel (fun call : CallRequirement => call.visitDefinitionIds cancel visit) value.calls

def DemandEnvelope.visitDefinitionIds (value : DemandEnvelope) : StateT σ (Except (Stopped cancel)) PUnit := do
  checked cancel
  visitVec cancel (fun application : BodyApplication => application.visitDefinitionIds cancel visit) value.applications
  visitVec cancel (fun body : BodyRequirement => body.visitDefinitionIds cancel visit) value.bodies
  visitVec cancel (fun call : CallRequirement => call.visitDefinitionIds cancel visit) value.requirements

end Visit

/-! ## What a visit sees -/

/-- The visit sees the definitions of these parts, and returns only where they are within the limits. -/
abbrev Sees {σ : Type} {cancel : CancellationToken} (seen : σ → List DefinitionId)
    (m : StateT σ (Except (Stopped cancel)) PUnit) (parts : List Part) : Prop :=
  Collects seen Part.definitions Part.Limited m parts

variable {part : Part}

section Collect

variable {σ : Type} {cancel : CancellationToken} {visit : DefinitionId → StateT σ (Except (Stopped cancel)) PUnit}
  {seen : σ → List DefinitionId} (hvis : ∀ id, Sees seen (visit id) [.id id])

include hvis

theorem visitTy_sees (ty : Ty) : Sees seen (visitTy cancel visit ty) [.ty ty] := by
  refine .lift fun references h => ?_
  obtain ⟨hlims, hmem⟩ := definitionReferences_ok h
  intro s s' a hrun
  obtain ⟨hseen, -⟩ := forM (fun id _ => hvis id) s s' a hrun
  refine ⟨fun i => ?_, by simpa [Part.Limited] using hlims⟩
  rw [hseen i]
  simp [Part.definitions, hmem]

theorem visitTypes_sees (types : List Ty) : Sees seen (types.forM (visitTy cancel visit)) (types.map .ty) := by
  refine (forM fun ty _ => visitTy_sees hvis ty).congr fun part => ?_
  simp [mem_flatMap, eq_comm]

theorem visitNominal_sees (nominal : NominalTy) : Sees seen (visitNominal cancel visit nominal) [.nominal nominal] := by
  obtain ⟨declaration, arguments, bindings⟩ := nominal
  have hall : Sees seen (visitNominal cancel visit ⟨declaration, arguments, bindings⟩)
      ([.id declaration] ++ (arguments.map .ty ++ bindings.flatMap fun b => [.id b.1] ++ [.ty b.2])) :=
    lift fun _ _ => .bind (hvis declaration) fun _ =>
      bind (visitTypes_sees hvis arguments) fun _ => .forM fun binding _ =>
        lift fun _ _ => .bind (hvis binding.1) fun _ => visitTy_sees hvis binding.2
  intro s s' a hrun
  obtain ⟨hseen, hlims⟩ := hall s s' a hrun
  constructor
  · intro i
    rw [hseen i]
    have hbnds : (∃ p ∈ bindings.flatMap fun b => [Part.id b.1] ++ [Part.ty b.2], i ∈ p.definitions) ↔
        ∃ b ∈ bindings, i = b.1 ∨ i ∈ b.2.definitions := by
      simp [or_and_right, exists_or, and_or_left]
    have hargs : (∃ p ∈ arguments.map Part.ty, i ∈ p.definitions) ↔ ∃ t ∈ arguments, i ∈ t.definitions := by
      simp
    have hnom := @Nominal.mem_definitions ⟨declaration, arguments, bindings⟩ i
    simp only [Nominal.heads, Nominal.kids] at hnom
    grind [Part.definitions_id, Part.definitions_nominal]
  · intro part hpart
    obtain rfl := mem_singleton.mp hpart
    intro kid hkid
    refine hlims (.ty kid) ?_
    rcases mem_append.mp hkid with hkid | hkid
    · simp [hkid]
    · obtain ⟨binding, hbnd, rfl⟩ := mem_map.mp hkid
      simpa using .inr ⟨binding.1, hbnd⟩

theorem ConcreteFunctionIdentity.visit_sees (value : ConcreteFunctionIdentity) :
    Sees seen (value.visitDefinitionIds cancel visit) value.parts :=
  lift fun _ _ => .bind (hvis _) fun _ => visitTypes_sees hvis _

theorem Signature.visit_sees (value : Signature) : Sees seen (value.visitDefinitionIds cancel visit) value.parts :=
  lift fun _ _ => .bind (visitTypes_sees hvis _) fun _ => visitTy_sees hvis _

theorem NativeDefaultApplication.visit_sees (value : NativeDefaultApplication) :
    Sees seen (value.visitDefinitionIds cancel visit) value.parts :=
  lift fun _ _ => .bind (hvis _) fun _ => visitTypes_sees hvis _

theorem CallableImplementation.visit_sees (value : CallableImplementation) :
    Sees seen (value.visitDefinitionIds cancel visit) value.parts := by
  refine .lift fun _ _ => ?_
  cases value with
  | required | script => exact .pure
  | native definition => exact .lift fun _ _ => hvis definition
  | nativeDefault value => exact value.visit_sees hvis

theorem NativeCallableRequirement.visit_sees (value : NativeCallableRequirement) :
    Sees seen (value.visitDefinitionIds cancel visit) value.parts := by
  refine (lift fun _ _ => bind (visitTy_sees hvis _) fun _ =>
    bind (visitNominal_sees hvis _) fun _ => lift fun _ _ =>
    bind (hvis _) fun _ => visitTypes_sees hvis _).congr fun part => ?_
  simp only [parts, mem_append, mem_cons, not_mem_nil, or_false, or_assoc]

theorem NativeCallableApplication.visit_sees (value : NativeCallableApplication) :
    Sees seen (value.visitDefinitionIds cancel visit) value.parts := by
  refine (lift fun _ _ => bind (value.requirement.visit_sees hvis) fun _ =>
    bind (value.inst.visit_sees hvis) fun _ =>
    bind (value.implementation.visit_sees hvis) fun _ =>
    value.signature.visit_sees hvis).congr fun part => ?_
  simp only [parts, mem_append, or_assoc]

theorem visitGenericParam_sees (value : GenericParam) :
    Sees seen (visitGenericParam cancel visit value) (genericParamParts value) :=
  lift fun _ _ => hvis _

theorem visitGenericBound_sees (value : GenericBound) :
    Sees seen (visitGenericBound cancel visit value) (genericBoundParts value) := by
  refine (lift fun _ _ => bind (visitTy_sees hvis _) fun _ =>
    forM fun nominal _ => visitNominal_sees hvis nominal).congr fun part => ?_
  simp [genericBoundParts, eq_comm]

theorem GenericBody.visit_sees (value : GenericBody) :
    Sees seen (value.visitDefinitionIds cancel visit) value.parts :=
  lift fun _ _ =>
    bind (.forM fun parameter _ => visitGenericParam_sees hvis parameter) fun _ =>
    forM fun bound _ => visitGenericBound_sees hvis bound

theorem ConstructionRequirement.visit_sees (value : ConstructionRequirement) :
    Sees seen (value.visitDefinitionIds cancel visit) value.parts :=
  lift fun _ _ => .bind (visitTy_sees hvis _) fun _ => visitNominal_sees hvis _

theorem SharedCallEntry.visit_sees (value : SharedCallEntry) :
    Sees seen (value.visitDefinitionIds cancel visit) value.parts := by
  refine (bind (value.inst.visit_sees hvis) fun _ =>
    bind (value.implementation.visit_sees hvis) fun _ =>
    bind (visitTypes_sees hvis _) fun _ => value.signature.visit_sees hvis).congr fun part => ?_
  simp only [parts, mem_append, or_assoc]

omit hvis in
/-- The parts of a node: its own, and those of its operations and constructions. -/
theorem EvidenceRef.mem_parts_children {node : EvidenceRef} : part ∈ node.parts ↔ part ∈ node.own ∨
    (∃ operation ∈ node.children.1, part ∈ operation.parts) ∨
      ∃ construction ∈ node.children.2, part ∈ construction.parts := by
  rw [mem_parts]
  simp only [kids, mem_append, mem_map, or_and_right, exists_or, exists_exists_and_eq_and]
  rfl

omit hvis in
private theorem mem_flatMap_attach {α : Type} {f : α → List Part} {l : List α} :
    part ∈ (l.attach.flatMap fun a => f a.1) ↔ ∃ a ∈ l, part ∈ f a := by
  simp

/-- The loop, where the operations below it are visited. -/
theorem visitConstructions_sees (size : Nat) (hoper : ∀ operation : OperationWitness,
      sizeOf operation < size → Sees seen (operation.visitDefinitionIds cancel visit) operation.parts) :
    ∀ pending : List ConstructionWitness, (pending.map sizeOf).sum ≤ size →
      Sees seen (visitConstructions cancel visit pending) (pending.flatMap (·.parts)) := by
  intro pending
  induction h : (pending.map sizeOf).sum using Nat.strong_induction_on generalizing pending with
  | _ n ih =>
    intro hsize
    cases pending with
    | nil =>
      rw [visitConstructions]
      exact pure
    | cons construction pending =>
      obtain ⟨requirement, selection⟩ := construction
      simp only [map_cons, sum_cons, ConstructionWitness.mk.sizeOf_spec] at h
      have hself : ∀ part, part ∈ (ConstructionWitness.mk requirement selection).parts ↔ _ :=
        fun part => EvidenceRef.mem_parts_children
      cases selection with
      | declared implementation operations constructions =>
        simp only [ConstructionSelection.declared.sizeOf_spec] at h
        have hctns := sum_sizeOf_lt constructions
        have hloop := ih ((constructions ++ pending).map sizeOf).sum
          (by rw [map_append, sum_append]; omega) _ rfl
          (by rw [map_append, sum_append]; omega)
        rw [visitConstructions]
        refine (lift fun _ _ => bind (requirement.visit_sees hvis) fun _ =>
          bind (implementation.visit_sees hvis) fun _ =>
          bind (forM fun operation _ => hoper operation.1
            (by have := sizeOf_lt_of_mem operation.2; omega)) fun _ => hloop).congr fun part => ?_
        rw [flatMap_cons, mem_append, hself]
        simp [EvidenceRef.own, EvidenceRef.children, or_assoc]
      | interface | forward =>
        have hloop := ih (pending.map sizeOf).sum (by omega) _ rfl (by omega)
        rw [visitConstructions]
        on_goal 2 => exact nofun
        refine (lift fun _ _ =>
          bind (requirement.visit_sees hvis) fun _ => hloop).congr fun part => ?_
        rw [flatMap_cons, mem_append, hself]
        simp [EvidenceRef.own, EvidenceRef.children]

theorem OperationWitness.visit_sees (value : OperationWitness) :
    Sees seen (value.visitDefinitionIds cancel visit) value.parts := by
  induction h : sizeOf value using Nat.strong_induction_on generalizing value with
  | _ n ih =>
    have hoper : ∀ operation : OperationWitness, sizeOf operation < n →
        Sees seen (operation.visitDefinitionIds cancel visit) operation.parts :=
      fun operation hlt => ih _ hlt operation rfl
    have hctn : ∀ construction : ConstructionWitness, sizeOf construction < n →
        Sees seen (construction.visitDefinitionIds cancel visit) construction.parts := by
      intro construction hlt
      rw [ConstructionWitness.visitDefinitionIds]
      refine (lift fun _ _ => visitConstructions_sees hvis _
        (fun operation hop => hoper operation ?_) [construction] le_rfl).congr fun part => ?_
      · simp only [map_cons, map_nil, sum_cons, sum_nil] at hop
        omega
      · simp
    have hself : ∀ part, part ∈ value.parts ↔ _ := fun part => EvidenceRef.mem_parts_children
    cases value with
    | selected call =>
      rw [OperationWitness.visitDefinitionIds]
      refine (lift fun _ _ => lift fun _ _ => call.visit_sees hvis).congr fun part => ?_
      rw [hself]
      simp [EvidenceRef.own, EvidenceRef.children]
    | forward requirement =>
      rw [OperationWitness.visitDefinitionIds]
      refine (lift fun _ _ => lift fun _ _ => requirement.visit_sees hvis).congr fun part => ?_
      rw [hself]
      simp [EvidenceRef.own, EvidenceRef.children]
    | sharedMethod requirement implementation operations constructions =>
      simp only [OperationWitness.sharedMethod.sizeOf_spec] at h
      rw [OperationWitness.visitDefinitionIds]
      refine (lift fun _ _ => lift fun _ _ => lift fun _ _ =>
        bind (forM fun construction _ => hctn construction.1
          (by have := sizeOf_lt_of_mem construction.2; omega)) fun _ =>
        bind (requirement.visit_sees hvis) fun _ =>
        bind (implementation.visit_sees hvis) fun _ =>
        forM fun operation _ => hoper operation.1
          (by have := sizeOf_lt_of_mem operation.2; omega)).congr fun part => ?_
      rw [hself]
      simp only [EvidenceRef.own, EvidenceRef.children, mem_append, mem_flatMap_attach]
      grind
    | sharedAdapter requirement entry operations constructions =>
      simp only [OperationWitness.sharedAdapter.sizeOf_spec] at h
      rw [OperationWitness.visitDefinitionIds]
      refine (lift fun _ _ => lift fun _ _ => bind (requirement.visit_sees hvis) fun _ =>
        lift fun _ _ =>
        bind (forM fun construction _ => hctn construction.1
          (by have := sizeOf_lt_of_mem construction.2; omega)) fun _ =>
        bind (entry.visit_sees hvis) fun _ =>
        forM fun operation _ => hoper operation.1
          (by have := sizeOf_lt_of_mem operation.2; omega)).congr fun part => ?_
      rw [hself]
      simp only [EvidenceRef.own, EvidenceRef.children, mem_append, mem_flatMap_attach]
      grind

theorem ConstructionWitness.visit_sees (value : ConstructionWitness) :
    Sees seen (value.visitDefinitionIds cancel visit) value.parts := by
  rw [ConstructionWitness.visitDefinitionIds]
  refine (lift fun _ _ => visitConstructions_sees hvis _
    (fun operation _ => operation.visit_sees hvis) [value] le_rfl).congr fun part => ?_
  simp

theorem SharedCall.visit_sees (value : SharedCall) :
    Sees seen (value.visitDefinitionIds cancel visit) value.parts := by
  refine (lift fun _ _ => bind (forM fun c _ => c.visit_sees hvis) fun _ =>
    bind (value.toSharedCallEntry.visit_sees hvis) fun _ =>
    forM fun o _ => o.visit_sees hvis).congr fun part => ?_
  simp only [parts, mem_append, or_assoc]

theorem InterfaceCallContract.visit_sees (value : InterfaceCallContract) :
    Sees seen (value.visitDefinitionIds cancel visit) value.parts := by
  have hfact (fact : TypeNormalization) : Sees seen (do
      visitTy cancel visit fact.source
      visitTy cancel visit fact.result) fact.parts :=
    bind (visitTy_sees hvis _) fun _ => visitTy_sees hvis _
  refine (lift fun _ _ => bind (forM fun c _ => c.visit_sees hvis) fun _ =>
    bind (forM fun fact _ => hfact fact) fun _ =>
    bind (visitTypes_sees hvis _) fun _ =>
    bind (forM fun o _ => o.visit_sees hvis) fun _ =>
    bind (visitNominal_sees hvis _) fun _ => visitTypes_sees hvis _).congr fun part => ?_
  simp only [parts, mem_append, or_assoc]

theorem NativeResultAdapter.visit_sees (value : NativeResultAdapter) :
    Sees seen (value.visitDefinitionIds cancel visit) value.parts :=
  lift fun _ _ => .bind (visitTy_sees hvis _) fun _ => value.implementation.visit_sees hvis

theorem NativeImport.visit_sees (value : NativeImport) :
    Sees seen (value.visitDefinitionIds cancel visit) value.parts := by
  refine (lift fun _ _ => bind (forM fun a _ => a.visit_sees hvis) fun _ =>
    bind (forM fun g _ => g.visit_sees hvis) fun _ =>
    bind (value.inst.visit_sees hvis) fun _ => lift fun _ _ =>
    bind (hvis _) fun _ => bind (value.signature.visit_sees hvis) fun _ =>
    bind (forM fun bound _ => visitGenericBound_sees hvis bound) fun _ =>
    forM fun o _ => o.visit_sees hvis).congr fun part => ?_
  simp only [parts, mem_append, or_assoc]

omit hvis in
theorem visitVec_sees {α : Type} {visitValue : α → StateT σ (Except (Stopped cancel)) PUnit}
    {parts : α → List Part} (h : ∀ a, Sees seen (visitValue a) (parts a)) (values : List α) :
    Sees seen (visitVec cancel visitValue values) (values.flatMap parts) := by
  unfold visitVec
  split
  · exact .throw
  · exact .forM fun a _ => .lift fun _ _ => h a

theorem BodyApplication.visit_sees (value : BodyApplication) :
    Sees seen (value.visitDefinitionIds cancel visit) value.parts := by
  refine (lift fun _ _ => bind (value.body.visit_sees hvis) fun _ =>
    visitVec_sees (visitTy_sees hvis) _).congr fun part => ?_
  simp [parts, eq_comm]

theorem CallRequirement.visit_sees (value : CallRequirement) :
    Sees seen (value.visitDefinitionIds cancel visit) value.parts := by
  refine .lift fun _ _ => ?_
  cases value with
  | direct inst => exact inst.visit_sees hvis
  | shared call => exact call.visit_sees hvis
  | interface call => exact call.visit_sees hvis
  | retainedBody application => exact application.visit_sees hvis
  | native imported => exact imported.visit_sees hvis
  | operation witness => exact witness.visit_sees hvis
  | construction witness => exact witness.visit_sees hvis
  | layout ty => exact visitTy_sees hvis ty
  | unknown reason => exact .pure

theorem BodyRequirement.visit_sees (value : BodyRequirement) :
    Sees seen (value.visitDefinitionIds cancel visit) value.parts := by
  refine (lift fun _ _ => bind (value.origin.visit_sees hvis) fun _ =>
    bind (forM fun g _ => g.visit_sees hvis) fun _ =>
    visitVec_sees (fun c => c.visit_sees hvis) _).congr fun part => ?_
  simp only [parts, mem_append, or_assoc]

/-- A visited envelope has its types within the limits; what is seen of it are its definitions. -/
theorem DemandEnvelope.visit_sees (value : DemandEnvelope) :
    Sees seen (value.visitDefinitionIds cancel visit) value.parts := by
  refine (lift fun _ _ => bind (visitVec_sees (fun a => a.visit_sees hvis) _) fun _ =>
    bind (visitVec_sees (fun b => b.visit_sees hvis) _) fun _ =>
    visitVec_sees (fun c => c.visit_sees hvis) _).congr fun part => ?_
  simp only [parts, mem_append, or_assoc]

end Collect

end Kagari.Updates
