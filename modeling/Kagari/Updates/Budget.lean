import Kagari.Updates.Records

/-!
# The budget of update evidence

- `Budget` (`kagari-contract/src/updates/limits.rs`): what is left of each limit
- `EvidenceRef.checkShape` (`callable/evidence.rs`): the limits on one tree of evidence
- `checkLeaf` (`updates/wire/shape.rs`): the limits on a value before it is encoded

A `CancellationToken` is set for the whole call, or not at all. A charge that is refused leaves no
budget behind: the update has failed. Stacks have their top at the head.
-/

namespace Kagari.Updates

/-- The two errors of a bounded computation. It is cancelled only where the token is set. -/
inductive Stopped (cancel : CancellationToken) where
  | cancelled (h : cancel = true)
  | limitExceeded

inductive DefinitionMappingError where
  | identity (error : DefinitionTableError)
  | cancelled
  | limitExceeded
  | invalidContract
deriving DecidableEq

inductive UpdateError where
  | cancelled
  | limitExceeded
  | invalidEvidence
  | identity (error : DefinitionMappingError)
deriving DecidableEq

def maxRecords : Nat := 1000000

def maxNested : Nat := 4096

structure Limits where
  bytes : Nat
  records : Nat
  visits : Nat
  applications : Nat

structure Budget where
  remaining : Limits
  applications : List BodyApplication := []

/-- A computation that charges a budget. -/
abbrev Charged (cancel : CancellationToken) := StateT Budget (Except (Stopped cancel))

section Charges

variable (cancel : CancellationToken)

/-- `CancellationToken::check`. -/
def checked : Except (Stopped cancel) Unit :=
  if h : cancel = true then .error (.cancelled h) else .ok ()

def nested (length : Nat) : Except (Stopped cancel) Unit :=
  if length > maxNested then .error .limitExceeded else .ok ()

namespace Budget

def records (count : Nat) : Charged cancel Unit := do
  checked cancel
  let budget ← get
  if budget.remaining.records < count then throw .limitExceeded
  else set { budget with remaining.records := budget.remaining.records - count }

def bytes (count : Nat) : Charged cancel Unit := do
  checked cancel
  let budget ← get
  if budget.remaining.bytes < count then throw .limitExceeded
  else set { budget with remaining.bytes := budget.remaining.bytes - count }

def visit : Charged cancel Unit := do
  checked cancel
  let budget ← get
  if budget.remaining.visits < 1 then throw .limitExceeded
  else set { budget with remaining.visits := budget.remaining.visits - 1 }

/-- Repeated applications share the allowance; every one is a visit. -/
def application (value : BodyApplication) : Charged cancel Unit := do
  visit cancel
  if value.arguments.length > maxNested || value.body.arguments.length > maxNested ||
      !(value.arguments ++ value.body.arguments).all Ty.withinWireLimits then throw .limitExceeded
  else do
    let budget ← get
    if value ∈ budget.applications then pure ()
    else if budget.remaining.applications < 1 then throw .limitExceeded
    else
      set { budget with
        remaining.applications := budget.remaining.applications - 1
        applications := budget.applications ++ [value] }

end Budget

/-! ## Evidence -/

namespace EvidenceRef

/-- `check_shape`'s loop; `fuel` is the number of nodes still allowed. -/
def checkShapeLoop : Nat → List (EvidenceRef × Nat) → Except (Stopped cancel) Unit
  | _, [] => .ok ()
  | 0, _ :: _ => do
    checked cancel
    .error .limitExceeded
  | fuel + 1, (node, depth) :: pending => do
    checked cancel
    if depth > 64 then .error .limitExceeded
    else if node.children.1.length > 4096 || node.children.2.length > 4096 then .error .limitExceeded
    else checkShapeLoop fuel (node.kids.map (fun kid => (kid, depth + 1)) ++ pending)

def checkShape (node : EvidenceRef) : Except (Stopped cancel) Unit :=
  checkShapeLoop cancel 4096 [(node, 0)]

end EvidenceRef

/-! ## Leaf shapes -/

mutual

/-- The nodes of a type, at a depth. `left` is the number of nodes still allowed. -/
def typeNodes (ty : Ty) (depth left : Nat) : Charged cancel Nat :=
  if depth > 64 then throw .limitExceeded
  else if left < 1 then throw .limitExceeded
  else do
    Budget.records cancel 1
    let left := left - 1
    match ty with
    | .host _ => return left
    | .selfType _ => return left
    | .parameter _ _ => return left
    | .builtin _ => return left
    | .reference target _ => typeNodes target (depth + 1) left
    | .range target _ => typeNodes target (depth + 1) left
    | .iter target => typeNodes target (depth + 1) left
    | .array target => typeNodes target (depth + 1) left
    | .set target _ => typeNodes target (depth + 1) left
    | .map key value _ => do
      let left ← typeNodes key (depth + 1) left
      typeNodes value (depth + 1) left
    | .tuple elements => typesNodes elements (depth + 1) left
    | .function params result => do
      let left ← typesNodes params (depth + 1) left
      typeNodes result (depth + 1) left
    | .struct nominal => nominalNodes nominal (depth + 1) left
    | .nativeObject nominal => nominalNodes nominal (depth + 1) left
    | .enum nominal => nominalNodes nominal (depth + 1) left
    | .trait nominal => nominalNodes nominal (depth + 1) left
    | .projection arguments receiver interface _ => do
      let left ← typeNodes receiver (depth + 1) left
      let left ← nominalNodes interface (depth + 1) left
      typesNodes arguments (depth + 1) left
termination_by structural ty

def typesNodes (types : List Ty) (depth left : Nat) : Charged cancel Nat :=
  match types with
  | [] => return left
  | ty :: types => do
    let left ← typeNodes ty depth left
    typesNodes types depth left
termination_by structural types

def nominalNodes (nominal : NominalTy) (depth left : Nat) : Charged cancel Nat :=
  match nominal with
  | ⟨_, arguments, associatedTypes⟩ => do
    nested cancel arguments.length
    nested cancel associatedTypes.length
    let left ← typesNodes arguments depth left
    bindingsNodes associatedTypes depth left
termination_by structural nominal

def bindingsNodes (bindings : List (DefinitionId × Ty)) (depth left : Nat) : Charged cancel Nat :=
  match bindings with
  | [] => return left
  | binding :: bindings => do
    let left ← bindingNodes binding depth left
    bindingsNodes bindings depth left
termination_by structural bindings

def bindingNodes (binding : DefinitionId × Ty) (depth left : Nat) : Charged cancel Nat :=
  match binding with
  | (_, ty) => typeNodes ty depth left
termination_by structural binding

end

def checkTy (ty : Ty) : Charged cancel Unit := do
  if !ty.withinWireLimits then throw .limitExceeded
  else
    let _ ← typeNodes cancel ty 1 8192

def checkNominal (nominal : NominalTy) : Charged cancel Unit := do
  let _ ← nominalNodes cancel nominal 2 8191

def checkTypes (types : List Ty) : Charged cancel Unit := do
  nested cancel types.length
  types.forM (checkTy cancel)

def Signature.checkLeaf (value : Signature) : Charged cancel Unit := do
  checkTypes cancel value.params
  checkTy cancel value.result

def ConcreteFunctionIdentity.checkLeaf (value : ConcreteFunctionIdentity) : Charged cancel Unit :=
  checkTypes cancel value.arguments

def checkBounds (bounds : List GenericBound) : Charged cancel Unit := do
  nested cancel bounds.length
  Budget.records cancel bounds.length
  bounds.forM fun bound => do
    checkTy cancel bound.ty
    nested cancel bound.constraints.length
    bound.constraints.forM (checkNominal cancel)

def GenericBody.checkLeaf (value : GenericBody) : Charged cancel Unit := do
  nested cancel value.parameters.length
  Budget.records cancel value.parameters.length
  checkBounds cancel value.bounds

/-- `shared_head`. -/
def SharedCallEntry.checkHead (value : SharedCallEntry) : Charged cancel Unit := do
  value.inst.checkLeaf cancel
  value.signature.checkLeaf cancel
  checkTypes cancel value.arguments

def NativeCallableRequirement.check (value : NativeCallableRequirement) : Charged cancel Unit := do
  checkTy cancel value.receiver
  checkNominal cancel value.interface
  checkTypes cancel value.arguments

namespace EvidenceRef

/-- What is checked at one node. -/
def checkNode : EvidenceRef → Charged cancel Unit
  | .operation (.selected call) => do
    call.requirement.check cancel
    call.inst.checkLeaf cancel
    call.signature.checkLeaf cancel
  | .operation (.forward requirement) => requirement.check cancel
  | .operation (.sharedMethod requirement implementation _ _) => do
    requirement.check cancel
    implementation.checkLeaf cancel
  | .operation (.sharedAdapter requirement entry _ _) => do
    requirement.check cancel
    entry.checkHead cancel
  | .construction (.mk requirement selection) => do
    checkTy cancel requirement.receiver
    checkNominal cancel requirement.interface
    match selection with
    | .declared implementation _ _ => implementation.checkLeaf cancel
    | _ => pure ()

def checkLoop : List EvidenceRef → Charged cancel Unit
  | [] => pure ()
  | node :: pending => do
    Budget.records cancel 1
    node.checkNode cancel
    Budget.visit cancel
    checkLoop (node.kids.reverse ++ pending)
termination_by pending => (pending.map sizeOf).sum
decreasing_by
  have := node.sizeOf_kids
  simp only [List.map_append, List.map_reverse, List.sum_append, List.sum_reverse, List.map_cons, List.sum_cons]
  omega

/-- `evidence`. -/
def checkLeaf (node : EvidenceRef) : Charged cancel Unit := do
  node.checkShape cancel
  checkLoop cancel [node]

end EvidenceRef

def OperationWitness.checkLeaf (value : OperationWitness) : Charged cancel Unit :=
  (EvidenceRef.operation value).checkLeaf cancel

def ConstructionWitness.checkLeaf (value : ConstructionWitness) : Charged cancel Unit :=
  (EvidenceRef.construction value).checkLeaf cancel

def checkWitnesses (operations : List OperationWitness) (constructions : List ConstructionWitness) :
    Charged cancel Unit := do
  nested cancel operations.length
  nested cancel constructions.length
  operations.forM (·.checkLeaf cancel)
  constructions.forM (·.checkLeaf cancel)

def SharedCall.checkLeaf (value : SharedCall) : Charged cancel Unit := do
  value.toSharedCallEntry.checkHead cancel
  checkWitnesses cancel value.operations value.constructions

def InterfaceCallContract.checkLeaf (value : InterfaceCallContract) : Charged cancel Unit := do
  checkNominal cancel value.interface
  checkTypes cancel value.arguments
  value.receiver.forM (checkTy cancel)
  nested cancel value.normalizations.length
  value.normalizations.forM fun fact => do
    checkTy cancel fact.source
    checkTy cancel fact.result
  checkWitnesses cancel value.operations value.constructions

def NativeImport.checkLeaf (value : NativeImport) : Charged cancel Unit := do
  value.inst.checkLeaf cancel
  value.signature.checkLeaf cancel
  value.generic.forM (·.checkLeaf cancel)
  value.resultAdapter.forM fun adapter => do
    checkTy cancel adapter.receiver
    adapter.implementation.checkLeaf cancel
  checkBounds cancel value.requirements
  checkWitnesses cancel value.callables []

end Charges

end Kagari.Updates
