import Kagari.Updates.Leaf

/-!
# Wire records of calls and evidence

- `EvidenceRef.encode` (`callable/wire/evidence.rs`): a tree of evidence as the flat list of its nodes,
  each with the numbers of its children
- `SharedCall.encode`, `InterfaceCallContract.encode` (`callable/wire.rs`) and `NativeImport.encode`
  (`native_import/wire.rs`)

The nodes alone determine the tree: a node says how many operations and constructions stand below it,
so two stacks of the same kinds that are written alike are equal (`Written.unique`), and the records tell
evidence apart (`EvidenceRef.encode_tellsApart`).
-/

namespace Kagari.Updates

open Lib List

/-! ## Encoders -/

def Stopped.mapping {cancel : CancellationToken} : Stopped cancel → DefinitionMappingError
  | .cancelled _ => .cancelled
  | .limitExceeded => .limitExceeded

structure SharedMethodWitnessRecord where
  requirement : NativeCallableRequirementRecord
  implementation : ConcreteFunctionIdentityRecord

inductive SelectionRecord where
  | declared (implementation : ConcreteFunctionIdentityRecord) (operations constructions : Nat)
  | interface
  | forward

/-- `Node`. -/
inductive EvidenceNode where
  | selected (value : NativeCallableApplicationRecord)
  | sharedMethod (entry : SharedMethodWitnessRecord) (operations constructions : Nat)
  | forward (value : NativeCallableRequirementRecord)
  | sharedAdapter (requirement : NativeCallableRequirementRecord) (entry : SharedCallEntryRecord)
      (operations constructions : Nat)
  | construction (requirement : ConstructionRequirementRecord) (selection : SelectionRecord)

structure EvidenceRecord where
  nodes : List EvidenceNode

structure SharedCallRecord where
  entry : SharedCallEntryRecord
  operations : List EvidenceRecord
  constructions : List EvidenceRecord

structure InterfaceCallContractRecord where
  normalizations : List TypeNormalizationRecord
  receiver : Option WireType
  operations : List EvidenceRecord
  constructions : List EvidenceRecord
  interface : NominalTyRecord
  methodSlot : Nat
  arguments : List WireType

structure NativeImportRecord where
  receiverAccess : Option ReferenceAccess
  resultAdapter : Option NativeResultAdapterRecord
  generic : Option GenericBodyRecord
  inst : ConcreteFunctionIdentityRecord
  binding : PortableDefinitionRef
  signature : SignatureRecord
  requirements : List GenericBoundRecord
  callables : List EvidenceRecord

section Encode

variable (encoding : DefinitionEncoding) (cancel : CancellationToken)

/-- `SharedMethodWitnessRecord::encode`. -/
def encodeSharedMethod (requirement : NativeCallableRequirement) (implementation : ConcreteFunctionIdentity) :
    Except DefinitionMappingError SharedMethodWitnessRecord := do
  checkMapping cancel
  let requirement ← requirement.encode encoding cancel
  let implementation ← implementation.encode encoding cancel
  return ⟨requirement, implementation⟩

namespace EvidenceRef

/-- The record of one node. -/
def encodeNode (node : EvidenceRef) : Except DefinitionMappingError EvidenceNode :=
  match node with
  | .operation (.selected call) => return .selected (← call.encode encoding cancel)
  | .operation (.forward requirement) => return .forward (← requirement.encode encoding cancel)
  | .operation (.sharedMethod requirement implementation operations constructions) => do
    let entry ← encodeSharedMethod encoding cancel requirement implementation
    return .sharedMethod entry (asU32 operations.length) (asU32 constructions.length)
  | .operation (.sharedAdapter requirement entry operations constructions) => do
    let requirement ← requirement.encode encoding cancel
    let entry ← entry.encode encoding cancel
    return .sharedAdapter requirement entry (asU32 operations.length) (asU32 constructions.length)
  | .construction (.mk requirement selection) => do
    let requirement ← requirement.encode encoding cancel
    match selection with
    | .declared implementation operations constructions => do
      let implementation ← implementation.encode encoding cancel
      return .construction requirement
        (.declared implementation (asU32 operations.length) (asU32 constructions.length))
    | .interface => return .construction requirement .interface
    | .forward => return .construction requirement .forward

def encodeLoop (pending : List EvidenceRef) (nodes : List EvidenceNode) :
    Except DefinitionMappingError (List EvidenceNode) :=
  match pending with
  | [] => .ok nodes
  | node :: pending => do
    checkMapping cancel
    let record ← node.encodeNode encoding cancel
    encodeLoop (node.kids ++ pending) (nodes ++ [record])
termination_by (pending.map sizeOf).sum
decreasing_by
  have := node.sizeOf_kids
  simp only [List.map_append, List.sum_append, List.map_cons, List.sum_cons]
  omega

def encode (node : EvidenceRef) : Except DefinitionMappingError EvidenceRecord := do
  (node.checkShape cancel).mapError Stopped.mapping
  let nodes ← encodeLoop encoding cancel [node] []
  return ⟨nodes⟩

end EvidenceRef

def OperationWitness.encode (value : OperationWitness) : Except DefinitionMappingError EvidenceRecord :=
  (EvidenceRef.operation value).encode encoding cancel

def ConstructionWitness.encode (value : ConstructionWitness) : Except DefinitionMappingError EvidenceRecord :=
  (EvidenceRef.construction value).encode encoding cancel

def SharedCall.encode (value : SharedCall) : Except DefinitionMappingError SharedCallRecord := do
  checkMapping cancel
  let entry ← value.toSharedCallEntry.encode encoding cancel
  let constructions ← value.constructions.mapM fun value => value.encode encoding cancel
  let operations ← value.operations.mapM fun value => value.encode encoding cancel
  return ⟨entry, operations, constructions⟩

def InterfaceCallContract.encode (value : InterfaceCallContract) :
    Except DefinitionMappingError InterfaceCallContractRecord := do
  checkMapping cancel
  let normalizations ← value.normalizations.mapM fun value => value.encode encoding cancel
  let receiver ← optional (encodeTy encoding cancel) value.receiver
  let constructions ← value.constructions.mapM fun value => value.encode encoding cancel
  let operations ← value.operations.mapM fun value => value.encode encoding cancel
  let interface ← encodeNominal encoding cancel value.interface
  let arguments ← value.arguments.mapM (encodeTy encoding cancel)
  return ⟨normalizations, receiver, operations, constructions, interface, value.methodSlot, arguments⟩

def NativeImport.encode (value : NativeImport) : Except DefinitionMappingError NativeImportRecord := do
  checkMapping cancel
  let resultAdapter ← optional (fun value : NativeResultAdapter => value.encode encoding cancel) value.resultAdapter
  let generic ← optional (fun value : GenericBody => value.encode encoding cancel) value.generic
  let inst ← value.inst.encode encoding cancel
  let binding ← encodeId encoding value.binding
  let signature ← value.signature.encode encoding cancel
  let requirements ← value.requirements.mapM (encodeGenericBound encoding cancel)
  let callables ← value.callables.mapM fun value => value.encode encoding cancel
  return ⟨value.receiverAccess, resultAdapter, generic, inst, binding, signature, requirements, callables⟩

end Encode

/-! ## Flat evidence -/

variable {node : EvidenceRef} {pending : List EvidenceRef}

section Flat

variable {encoding : DefinitionEncoding} {cancel : CancellationToken} {E : DefinitionMappingError → Prop}

/-- The nodes that the loop writes for a stack. -/
inductive Written (encoding : DefinitionEncoding) (cancel : CancellationToken) :
    List EvidenceRef → List EvidenceNode → Prop
  | nil : Written encoding cancel [] []
  | cons {node : EvidenceRef} {pending : List EvidenceRef} {record : EvidenceNode} {nodes : List EvidenceNode} :
      node.encodeNode encoding cancel = .ok record → Written encoding cancel (node.kids ++ pending) nodes →
      Written encoding cancel (node :: pending) (record :: nodes)

theorem EvidenceRef.encodeLoop_ok : ∀ {acc out : List EvidenceNode},
    encodeLoop encoding cancel pending acc = .ok out →
      ∃ nodes, Written encoding cancel pending nodes ∧ out = acc ++ nodes := by
  intro acc
  fun_induction encodeLoop encoding cancel pending acc with
  | case1 acc =>
    intro out h
    exact ⟨[], .nil, by rw [← Except.ok.inj h, append_nil]⟩
  | case2 acc node pending ih =>
    intro out h
    obtain ⟨_, -, h⟩ := bind_ok.mp h
    obtain ⟨record, hrec, h⟩ := bind_ok.mp h
    obtain ⟨nodes, hnds, rfl⟩ := ih record h
    exact ⟨record :: nodes, .cons hrec hnds, by simp⟩

/-- Whether a node is an operation. -/
def EvidenceRef.isOperation : EvidenceRef → Bool
  | .operation _ => true
  | .construction _ => false

theorem EvidenceRef.kids_kinds (node : EvidenceRef) : node.kids.map isOperation =
    List.replicate node.children.1.length true ++ List.replicate node.children.2.length false := by
  simp [kids, isOperation, Function.comp_def]

/-- The children, from the list of both kinds and the number of operations. -/
theorem EvidenceRef.children_eq {node node' : EvidenceRef} (h : node.kids = node'.kids)
    (hlen : node.children.1.length = node'.children.1.length) : node.children = node'.children := by
  obtain ⟨hos, hcs⟩ := append_inj h (by simp [hlen])
  have hoper : Function.Injective EvidenceRef.operation := fun _ _ => EvidenceRef.operation.inj
  have hctn : Function.Injective EvidenceRef.construction := fun _ _ => EvidenceRef.construction.inj
  exact Prod.ext (map_injective_iff.mpr hoper hos) (map_injective_iff.mpr hctn hcs)

/-- Every node has at most as many children as `check_shape` admits. -/
inductive EvidenceRef.Fits : EvidenceRef → Prop
  | node {node : EvidenceRef} : node.children.1.length ≤ 4096 → node.children.2.length ≤ 4096 →
      (∀ kid ∈ node.kids, kid.Fits) → node.Fits

theorem EvidenceRef.checkShapeLoop_fits {fuel : Nat} : ∀ {pending : List (EvidenceRef × Nat)},
    checkShapeLoop cancel fuel pending = .ok () → ∀ p ∈ pending, p.1.Fits := by
  induction fuel with
  | zero =>
    intro pending h
    cases pending with
    | nil => exact nofun
    | cons p pending =>
      obtain ⟨_, -, h⟩ := bind_ok.mp h
      cases h
  | succ fuel ih =>
    intro pending h
    cases pending with
    | nil => exact nofun
    | cons p pending =>
      obtain ⟨node, depth⟩ := p
      obtain ⟨_, -, h⟩ := bind_ok.mp h
      split at h
      · cases h
      · split at h
        · cases h
        · rename_i hcnt
          have hall := ih h
          simp only [Bool.or_eq_true, decide_eq_true_eq, not_or, not_lt] at hcnt
          refine forall_mem_cons.mpr ⟨.node hcnt.1 hcnt.2 fun kid hkid => ?_, fun p hp => ?_⟩
          · exact hall (kid, depth + 1) (mem_append_left _ (mem_map_of_mem hkid))
          · exact hall p (mem_append_right _ hp)

theorem asU32_inj {n m : Nat} (hn : n ≤ 4096) (hm : m ≤ 4096) (h : asU32 n = asU32 m) : n = m := by
  unfold asU32 at h
  omega

variable (hcanc : cancel = true → E .cancelled)

include hcanc

theorem encodeSharedMethod_tellsApart : TellsApart E
    (fun pair : NativeCallableRequirement × ConcreteFunctionIdentity =>
      AllParts (Part.Good encoding cancel E) (pair.1.parts ++ pair.2.parts))
    fun pair => encodeSharedMethod encoding cancel pair.1 pair.2 := by
  rintro ⟨requirement, implementation⟩ ⟨requirement', implementation'⟩ h h'
  obtain ⟨hreq, himpl⟩ := allParts_append.mp h
  obtain ⟨hreq', himpl'⟩ := allParts_append.mp h'
  refine checked_reveals hcanc (.bind
    (NativeCallableRequirement.encode_tellsApart hcanc _ _ hreq hreq') fun q q' =>
    .bind (ConcreteFunctionIdentity.encode_tellsApart hcanc _ _ himpl himpl') fun i i' =>
    .pure ?_)
  rintro ⟨⟨-, hq⟩, hi⟩
  simp [hq, hi]

/-- Nodes of one kind with one record agree on everything but their children, and have as many of them. -/
theorem EvidenceRef.encodeNode_same {node node' : EvidenceRef} {record : EvidenceNode}
    (hkind : node.isOperation = node'.isOperation) (h : AllParts (Part.Good encoding cancel E) node.own)
    (h' : AllParts (Part.Good encoding cancel E) node'.own) (hfits : node.Fits) (hfits' : node'.Fits)
    (hr : node.encodeNode encoding cancel = .ok record) (hr' : node'.encodeNode encoding cancel = .ok record) :
    node.children.1.length = node'.children.1.length ∧ node.children.2.length = node'.children.2.length ∧
      (node.children = node'.children → node = node') := by
  obtain ⟨hops, hcons, -⟩ := hfits
  obtain ⟨hops', hcons', -⟩ := hfits'
  cases node with
  | operation witness =>
    cases node' with
    | construction witness' => cases hkind
    | operation witness' =>
      cases witness <;> cases witness' <;>
        simp only [encodeNode, bind_ok, pure, Except.pure, Except.ok.injEq] at hr hr'
      case selected.selected call call' =>
        obtain ⟨r, hcall, rfl⟩ := hr
        obtain ⟨r', hcall', heq⟩ := hr'
        cases heq
        have := (NativeCallableApplication.encode_tellsApart hcanc).inj h h' hcall hcall'
        simp [children, this]
      case forward.forward requirement requirement' =>
        obtain ⟨r, hreq, rfl⟩ := hr
        obtain ⟨r', hreq', heq⟩ := hr'
        cases heq
        have := (NativeCallableRequirement.encode_tellsApart hcanc).inj h h' hreq hreq'
        simp [children, this]
      case sharedMethod.sharedMethod requirement implementation os cs requirement' implementation' os' cs' =>
        obtain ⟨r, hent, rfl⟩ := hr
        obtain ⟨r', hent', heq⟩ := hr'
        simp only [EvidenceNode.sharedMethod.injEq] at heq
        obtain ⟨rfl, ho, hc⟩ := heq
        have hpair := ((encodeSharedMethod_tellsApart hcanc (_, _) (_, _) h h').iff trivial _ _ hent hent').mp rfl
        cases hpair
        refine ⟨asU32_inj hops hops' ho.symm, asU32_inj hcons hcons' hc.symm, fun heq => ?_⟩
        cases heq
        rfl
      case sharedAdapter.sharedAdapter requirement entry os cs requirement' entry' os' cs' =>
        simp only [own, allParts_append] at h h'
        obtain ⟨q, hreq, r, hent, rfl⟩ := hr
        obtain ⟨q', hreq', r', hent', heq⟩ := hr'
        simp only [EvidenceNode.sharedAdapter.injEq] at heq
        obtain ⟨rfl, rfl, ho, hc⟩ := heq
        obtain rfl := (NativeCallableRequirement.encode_tellsApart hcanc).inj h.1 h'.1 hreq hreq'
        obtain rfl := (SharedCallEntry.encode_tellsApart hcanc).inj h.2 h'.2 hent hent'
        refine ⟨asU32_inj hops hops' ho.symm, asU32_inj hcons hcons' hc.symm, fun heq => ?_⟩
        cases heq
        rfl
      all_goals grind -ring -linarith
  | construction witness =>
    cases node' with
    | operation witness' => cases hkind
    | construction witness' =>
      obtain ⟨requirement, selection⟩ := witness
      obtain ⟨requirement', selection'⟩ := witness'
      simp only [encodeNode, bind_ok] at hr hr'
      obtain ⟨q, hreq, hr⟩ := hr
      obtain ⟨q', hreq', hr'⟩ := hr'
      cases selection <;> cases selection' <;>
        simp only [bind_ok, pure, Except.pure, Except.ok.injEq] at hr hr'
      case declared.declared implementation os cs implementation' os' cs' =>
        simp only [own, allParts_append] at h h'
        obtain ⟨r, himpl, rfl⟩ := hr
        obtain ⟨r', himpl', heq⟩ := hr'
        simp only [EvidenceNode.construction.injEq, SelectionRecord.declared.injEq] at heq
        obtain ⟨rfl, rfl, ho, hc⟩ := heq
        obtain rfl := (ConstructionRequirement.encode_tellsApart hcanc).inj h.1 h'.1 hreq hreq'
        obtain rfl := (ConcreteFunctionIdentity.encode_tellsApart hcanc).inj h.2 h'.2 himpl himpl'
        refine ⟨asU32_inj hops hops' ho.symm, asU32_inj hcons hcons' hc.symm, fun heq => ?_⟩
        cases heq
        rfl
      case interface.interface | forward.forward =>
        rw [← hr] at hr'
        cases hr'
        obtain rfl := (ConstructionRequirement.encode_tellsApart hcanc).inj h h' hreq hreq'
        simp [children]
      all_goals grind -ring -linarith

/-- Stacks of the same kinds that are written alike are equal. -/
theorem Written.unique {nodes : List EvidenceNode}
    (hw : Written encoding cancel pending nodes) : ∀ {pending' : List EvidenceRef},
    Written encoding cancel pending' nodes →
    pending.map EvidenceRef.isOperation = pending'.map EvidenceRef.isOperation →
    (∀ node ∈ pending, AllParts (Part.Good encoding cancel E) node.parts ∧ node.Fits) →
    (∀ node ∈ pending', AllParts (Part.Good encoding cancel E) node.parts ∧ node.Fits) → pending = pending' := by
  induction hw with
  | nil =>
    intro pending' hw' hkinds _ _
    cases hw'
    rfl
  | @cons node pending record nodes hrec hrest ih =>
    intro pending' hw' hkinds h h'
    cases hw' with
    | @cons node' pending' _ _ hrec' hrest' =>
      simp only [map_cons, cons.injEq] at hkinds
      obtain ⟨⟨hpts, hfits⟩, htail⟩ := forall_mem_cons.mp h
      obtain ⟨⟨hpts', hfits'⟩, htail'⟩ := forall_mem_cons.mp h'
      obtain ⟨hown, hkids⟩ := EvidenceRef.allParts_iff.mp hpts
      obtain ⟨hown', hkids'⟩ := EvidenceRef.allParts_iff.mp hpts'
      obtain ⟨hos, hcs, hsame⟩ :=
        EvidenceRef.encodeNode_same hcanc hkinds.1 hown hown' hfits hfits' hrec hrec'
      have hfit : ∀ kid ∈ node.kids, kid.Fits := by
        cases hfits
        assumption
      have hfit' : ∀ kid ∈ node'.kids, kid.Fits := by
        cases hfits'
        assumption
      have hmap : (node.kids ++ pending).map EvidenceRef.isOperation =
          (node'.kids ++ pending').map EvidenceRef.isOperation := by
        simp [EvidenceRef.kids_kinds, hos, hcs, hkinds.2]
      have heq := ih hrest' hmap (forall_mem_append.mpr ⟨fun kid hkid => ⟨hkids kid hkid, hfit kid hkid⟩, htail⟩)
        (forall_mem_append.mpr ⟨fun kid hkid => ⟨hkids' kid hkid, hfit' kid hkid⟩, htail'⟩)
      have hlen : node.kids.length = node'.kids.length := by simp [EvidenceRef.kids, hos, hcs]
      obtain ⟨hkid, rfl⟩ := append_inj heq hlen
      rw [hsame (EvidenceRef.children_eq hkid hos)]

omit hcanc in
theorem EvidenceRef.encode_ok {record : EvidenceRecord}
    (h : node.encode encoding cancel = .ok record) :
    node.Fits ∧ Written encoding cancel [node] record.nodes := by
  obtain ⟨_, hshp, h⟩ := bind_ok.mp h
  obtain ⟨nodes, hloop, h⟩ := bind_ok.mp h
  obtain ⟨written, hwrtn, rfl⟩ := encodeLoop_ok hloop
  rw [← Except.ok.inj h]
  exact ⟨checkShapeLoop_fits (mapError_eq_ok.mp hshp) (node, 0) (mem_singleton_self _), hwrtn⟩

theorem EvidenceRef.encodeNode_stops
    (h : AllParts (Part.Good encoding cancel E) node.own) : Stops E (node.encodeNode encoding cancel) := by
  have hctn {value : ConstructionRequirement} (h : AllParts (Part.Good encoding cancel E) value.parts) :
      Stops E (value.encode encoding cancel) := (ConstructionRequirement.encode_tellsApart hcanc).stops h
  cases node with
  | operation witness =>
    cases witness with
    | selected call => exact .bind ((NativeCallableApplication.encode_tellsApart hcanc).stops h) fun _ => .pure
    | forward requirement => exact .bind ((NativeCallableRequirement.encode_tellsApart hcanc).stops h) fun _ => .pure
    | sharedMethod requirement implementation operations constructions =>
      exact .bind ((encodeSharedMethod_tellsApart hcanc).stops (a := (_, _)) h) fun _ => .pure
    | sharedAdapter requirement entry operations constructions =>
      obtain ⟨h, hent⟩ := allParts_append.mp h
      exact .bind ((NativeCallableRequirement.encode_tellsApart hcanc).stops h) fun _ =>
        .bind ((SharedCallEntry.encode_tellsApart hcanc).stops hent) fun _ => .pure
  | construction witness =>
    obtain ⟨requirement, selection⟩ := witness
    cases selection with
    | declared implementation operations constructions =>
      obtain ⟨h, himpl⟩ := allParts_append.mp h
      exact .bind (hctn h) fun _ =>
        .bind ((ConcreteFunctionIdentity.encode_tellsApart hcanc).stops himpl) fun _ => .pure
    | interface | forward => exact .bind (hctn h) fun _ => .pure

theorem EvidenceRef.encodeLoop_stops : ∀ {acc : List EvidenceNode},
    (∀ node ∈ pending, AllParts (Part.Good encoding cancel E) node.parts) →
      Stops E (encodeLoop encoding cancel pending acc) := by
  intro acc
  fun_induction encodeLoop encoding cancel pending acc with
  | case1 acc => exact fun _ => .ok
  | case2 acc node pending ih =>
    intro h
    obtain ⟨hhead, htail⟩ := forall_mem_cons.mp h
    obtain ⟨hown, hkids⟩ := allParts_iff.mp hhead
    exact .bind (checkMapping_stops hcanc) fun _ => .bind (encodeNode_stops hcanc hown) fun record =>
      ih record (forall_mem_append.mpr ⟨hkids, htail⟩)

/-! ## Records tell evidence apart -/

variable (hlim : E .limitExceeded)

include hlim

theorem EvidenceRef.encode_stops (h : AllParts (Part.Good encoding cancel E) node.parts) :
    Stops E (node.encode encoding cancel) := by
  refine .bind (.mapError fun e _ => ?_) fun _ =>
    .bind (encodeLoop_stops hcanc (forall_mem_singleton.mpr h)) fun _ => .pure
  cases e with
  | cancelled hset => exact hcanc hset
  | limitExceeded => exact hlim

/-- Among the nodes of one kind. -/
theorem EvidenceRef.encode_tellsApart (operation : Bool) : TellsApart E
    (fun node : EvidenceRef => node.isOperation = operation ∧ AllParts (Part.Good encoding cancel E) node.parts)
    fun node => node.encode encoding cancel := by
  refine .of_injective (fun _ h => encode_stops hcanc hlim h.2) fun node node' record h h' hr hr' => ?_
  obtain ⟨hfits, hwrtn⟩ := encode_ok hr
  obtain ⟨hfits', hwrtn'⟩ := encode_ok hr'
  have heq := hwrtn.unique hcanc hwrtn' (by simp [h.1, h'.1]) (forall_mem_singleton.mpr ⟨h.2, hfits⟩)
    (forall_mem_singleton.mpr ⟨h'.2, hfits'⟩)
  exact cons.inj heq |>.1

theorem OperationWitness.encode_tellsApart :
    EncodesApart encoding cancel E OperationWitness.parts OperationWitness.encode := by
  intro value value' h h'
  have hnds := EvidenceRef.encode_tellsApart hcanc hlim true _ _ ⟨rfl, h⟩ ⟨rfl, h'⟩
  rwa [EvidenceRef.operation.injEq] at hnds

theorem ConstructionWitness.encode_tellsApart :
    EncodesApart encoding cancel E ConstructionWitness.parts ConstructionWitness.encode := by
  intro value value' h h'
  have hnds := EvidenceRef.encode_tellsApart hcanc hlim false _ _ ⟨rfl, h⟩ ⟨rfl, h'⟩
  rwa [EvidenceRef.construction.injEq] at hnds

theorem SharedCall.encode_tellsApart : EncodesApart encoding cancel E SharedCall.parts SharedCall.encode := by
  rintro ⟨entry, operations, constructions⟩ ⟨entry', operations', constructions'⟩ h h'
  simp only [parts, allParts_append, allParts_flatMap] at h h'
  refine checked_reveals hcanc (.bind (SharedCallEntry.encode_tellsApart hcanc _ _ h.1.2 h'.1.2) fun e e' =>
    .bind ((ConstructionWitness.encode_tellsApart hcanc hlim).mapM _ _ h.1.1 h'.1.1) fun cs cs' =>
    .bind ((OperationWitness.encode_tellsApart hcanc hlim).mapM _ _ h.2 h'.2) fun os os' => .pure ?_)
  rintro ⟨⟨⟨-, he⟩, hcs⟩, hos⟩
  simp [he, hcs, hos]

theorem InterfaceCallContract.encode_tellsApart :
    EncodesApart encoding cancel E InterfaceCallContract.parts InterfaceCallContract.encode := by
  rintro ⟨constructions, normalizations, receiver, operations, interface, methodSlot, arguments⟩
    ⟨constructions', normalizations', receiver', operations', interface', methodSlot', arguments'⟩ h h'
  simp only [parts, allParts_append, allParts_flatMap, allParts_map, allParts_cons, allParts_nil, and_true,
    Part.good_ty, Part.good_nominal, Option.mem_toList] at h h'
  obtain ⟨⟨⟨⟨⟨hctns, hfacts⟩, hrecv⟩, hoperations⟩, hiface⟩, hargs⟩ := h
  obtain ⟨⟨⟨⟨⟨hctns', hfacts'⟩, hrecv'⟩, hoperations'⟩, hiface'⟩, hargs'⟩ := h'
  refine checked_reveals hcanc (.bind
    ((TypeNormalization.encode_tellsApart hcanc).mapM _ _ hfacts hfacts') fun fs fs' =>
    .bind (encodeTy_tellsApart.optional _ _ hrecv hrecv') fun w w' =>
    .bind ((ConstructionWitness.encode_tellsApart hcanc hlim).mapM _ _ hctns hctns')
      fun cs cs' =>
    .bind ((OperationWitness.encode_tellsApart hcanc hlim).mapM _ _ hoperations hoperations') fun os os' =>
    .bind (encodeNominal_tellsApart _ _ hiface hiface') fun n n' =>
    .bind (encodeTy_tellsApart.mapM _ _ hargs hargs') fun ws ws' => .pure ?_)
  rintro ⟨⟨⟨⟨⟨⟨-, hfs⟩, hw⟩, hcs⟩, hos⟩, hn⟩, hws⟩
  simp only [InterfaceCallContractRecord.mk.injEq, InterfaceCallContract.mk.injEq, hfs, hw, hcs, hos, hn, hws]
  grind

theorem NativeImport.encode_tellsApart :
    EncodesApart encoding cancel E NativeImport.parts NativeImport.encode := by
  rintro ⟨receiverAccess, resultAdapter, generic, inst, binding, signature, requirements, callables⟩
    ⟨receiverAccess', resultAdapter', generic', inst', binding', signature', requirements', callables'⟩ h h'
  simp only [parts, allParts_append, allParts_flatMap, allParts_cons, allParts_nil, and_true, Part.good_id,
    Option.mem_toList] at h h'
  obtain ⟨⟨⟨⟨⟨⟨hadapter, hgnrc⟩, hinst⟩, hbnd⟩, hsig⟩, hreqs⟩, hcallables⟩ := h
  obtain ⟨⟨⟨⟨⟨⟨hadapter', hgnrc'⟩, hinst'⟩, hbnd'⟩, hsig'⟩, hreqs'⟩, hcallables'⟩ := h'
  refine checked_reveals hcanc (.bind
    ((NativeResultAdapter.encode_tellsApart hcanc).optional _ _ hadapter hadapter') fun a a' =>
    .bind ((GenericBody.encode_tellsApart hcanc).optional _ _ hgnrc hgnrc') fun g g' =>
    .bind (ConcreteFunctionIdentity.encode_tellsApart hcanc _ _ hinst hinst') fun i i' =>
    .bind (encodeId_tellsApart _ _ hbnd hbnd') fun b b' =>
    .bind (Signature.encode_tellsApart hcanc _ _ hsig hsig') fun s s' =>
    .bind ((encodeGenericBound_tellsApart hcanc).mapM _ _ hreqs hreqs') fun rs rs' =>
    .bind ((OperationWitness.encode_tellsApart hcanc hlim).mapM _ _ hcallables hcallables') fun cs cs' =>
    .pure ?_)
  rintro ⟨⟨⟨⟨⟨⟨⟨-, ha⟩, hg⟩, hi⟩, hb⟩, hs⟩, hrs⟩, hcs⟩
  simp [ha, hg, hi, hb, hs, hrs, hcs]

end Flat

end Kagari.Updates
