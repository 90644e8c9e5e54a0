import Kagari.Bytecode.Availability
import Kagari.Lib.BitSet
import Kagari.Types.Shape

/-!
# The verifier's flow check

`kagari-bytecode/src/verifier/flow.rs` and `flow/solver.rs`: the control-flow graph over basic
blocks, reachability, the two fixed points on a worklist, and the check of every program point.

- Every step charges a work budget (`charge`). Loops that charge on every turn take the budget as
  their fuel: when it is used up, the source has already stopped with the work limit.
- A bit set over the slots, `Vec<u64>` in the source, is one `BitVec` of all its words.
- A panic of the source (`expect`, an index out of bounds) is the error `panic`: the check does
  not accept.
-/

namespace Kagari.Bytecode

inductive BytecodeVerificationError where
  | cancelled
  | invalidOperation (function : Nat) (reason : String)
  | panic (message : String)
deriving DecidableEq

structure FlowBudget where
  cancel : CancellationToken
  work : Nat
  retainedBytes : Nat

abbrev FlowM := StateT FlowBudget (Except BytecodeVerificationError)

def maxFlowBytes : Nat := 64 * 1024 * 1024

def maxFlowWork : Nat := 100000000

/-- One basic block, with bit sets of `w` bits. -/
structure Block (w : Nat) where
  start : Nat
  stop : Nat
  successors : List Nat
  predecessors : List Nat
  reachable : Bool
  uses : BitVec w
  defines : BitVec w
  initialized : BitVec w
  live : BitVec w

structure AwaitLiveness (w : Nat) where
  instruction : Nat
  live : BitVec w

inductive Direction where
  | initialization | liveness
deriving DecidableEq

open Lib

section Flow

variable {P : Type} (function : BytecodeFunction P) (availability : List DebugNode)

/-- The words of a bit set over the function's slots. -/
def wordCount : Nat := (function.metadata.slots.length + 63) / 64

/-- The bits of those words. -/
abbrev width : Nat := 64 * wordCount function

def invalid {α : Type} (reason : String) : FlowM α :=
  throw (.invalidOperation function.id reason)

def workLimit : String := "executable flow analysis work limit"

def charge (count : Nat) : FlowM Unit := do
  let budget ← get
  if budget.cancel then throw .cancelled
  else do
    set { budget with work := budget.work + count }
    if budget.work + count > maxFlowWork then invalid function workLimit

/-! ## The graph -/

def insertLeader (pc : Nat) (leaders : List Nat) : List Nat :=
  if pc ∈ leaders then leaders else leaders.orderedInsert (· ≤ ·) pc

/-- The leaders a control instruction makes, besides the one after it. -/
def branchTargets : BytecodeInstruction P → Option (List Nat)
  | .jump target => some [target]
  | .branch _ thenTarget elseTarget => some [thenTarget, elseTarget]
  | .predicateBranch _ _ _ _ thenTarget elseTarget => some [thenTarget, elseTarget]
  | .ret _ => some []
  | .unreachable => some []
  | _ => none

def collectLeaders (len : Nat) : List (BytecodeInstruction P) → Nat → List Nat → FlowM (List Nat)
  | [], _, leaders => return leaders
  | instruction :: code, pc, leaders => do
    charge function 1
    match branchTargets instruction with
    | none => collectLeaders len code (pc + 1) leaders
    | some targets =>
      let leaders := targets.foldl (fun leaders target => insertLeader target leaders) leaders
      let leaders := if pc + 1 < len then insertLeader (pc + 1) leaders else leaders
      collectLeaders len code (pc + 1) leaders

def instructionAt (pc : Nat) : FlowM (BytecodeInstruction P) :=
  match function.instructions[pc]? with
  | some instruction => return instruction
  | none => throw (.panic "instruction index")

/-- The operand slots of an instruction, then the slots of the debug ranges that cover it. -/
def inputs (pc : Nat) : FlowM (List Slot) := do
  let instruction ← instructionAt function pc
  let slots ← DebugAvailability.visit (charge function) availability pc
  return instruction.slotInputs ++ slots

/-- Slots read before they are written, and slots written, over some program counters. -/
def scanBlock {w : Nat} : List Nat → BitVec w → BitVec w → FlowM (BitVec w × BitVec w)
  | [], uses, defines => return (uses, defines)
  | pc :: pcs, uses, defines => do
    let slots ← inputs function availability pc
    charge function (slots.length + 1)
    let instruction ← instructionAt function pc
    let uses := slots.foldl
      (fun uses slot => if BitSet.contains defines slot then uses else BitSet.insert uses slot) uses
    let defines := instruction.slotOutput.elim defines (BitSet.insert defines)
    scanBlock pcs uses defines

def successor (leaders : List Nat) (pc : Nat) : FlowM Nat :=
  match leaders.idxOf? pc with
  | some index => return index
  | none => throw (.panic "checked branch leader")

def successorsOf (leaders : List Nat) (stop : Nat) (last : BytecodeInstruction P) :
    FlowM (List Nat) :=
  match branchTargets last with
  | some targets => targets.mapM (successor leaders)
  | none => do return [← successor leaders stop]

/-- The blocks from each leader to the next. -/
def buildBlocks (leaders : List Nat) : List Nat → FlowM (List (Block (width function)))
  | [] => return []
  | start :: rest => do
    let stop := rest.headD function.instructions.length
    let pcs := List.range' start (min stop function.instructions.length - start)
    let (uses, defines) ← scanBlock function availability pcs 0 0
    if stop = 0 then throw (.panic "instruction index")
    else do
      let last ← instructionAt function (stop - 1)
      let successors ← successorsOf leaders stop last
      let blocks ← buildBlocks leaders rest
      return { start, stop, successors, predecessors := [], reachable := false, uses, defines
               initialized := BitVec.allOnes _, live := 0 } :: blocks

/-- The blocks that have `index` among their successors, once for each edge. -/
def predecessorsOf {w : Nat} (blocks : List (Block w)) (index : Nat) : List Nat :=
  (List.range blocks.length).flatMap fun previous =>
    match blocks[previous]? with
    | some block => (block.successors.filter (· == index)).map fun _ => previous
    | none => []

/-- The bytes of one `Block` record. -/
def blockBytes : Nat := 168

/-- The bytes of one index node. -/
def nodeBytes : Nat := 24

def stateBytes (blocks words ranges : Nat) : Nat :=
  blocks * (words * 32 + (blockBytes + 64 + 32)) + words * 16 + ranges * nodeBytes

def graph : FlowM (List (Block (width function))) := do
  let leaders ← collectLeaders function function.instructions.length function.instructions 0 [0]
  let bytes := stateBytes leaders.length (wordCount function)
    function.metadata.debug.localLiveRanges.length
  if bytes > maxFlowBytes then invalid function "executable flow analysis state limit"
  else do
    let blocks ← buildBlocks function availability leaders leaders
    return blocks.mapIdx fun index block =>
      { block with predecessors := predecessorsOf blocks index }

/-! ## Reachability -/

variable {w : Nat}

def blockAt (blocks : List (Block w)) (index : Nat) : FlowM (Block w) :=
  match blocks[index]? with
  | some block => return block
  | none => throw (.panic "block index")

def markReachable (blocks : List (Block w)) (index : Nat) : List (Block w) :=
  blocks.modify index fun block => { block with reachable := true }

def visitSuccessors : List Nat → List Nat → List (Block w) → FlowM (List Nat × List (Block w))
  | [], pending, blocks => return (pending, blocks)
  | next :: edges, pending, blocks => do
    charge function 1
    let block ← blockAt blocks next
    if block.reachable then visitSuccessors edges pending blocks
    else visitSuccessors edges (next :: pending) (markReachable blocks next)

/-- Every block is pushed at most once, so the fuel is never what ends the loop. -/
def reachLoop : Nat → List Nat → List (Block w) → FlowM (List (Block w))
  | _, [], blocks => return blocks
  | 0, _ :: _, blocks => return blocks
  | fuel + 1, index :: pending, blocks => do
    let block ← blockAt blocks index
    let (pending, blocks) ← visitSuccessors function block.successors pending blocks
    reachLoop fuel pending blocks

def reachability (blocks : List (Block w)) : FlowM (List (Block w)) := do
  let _ ← blockAt blocks 0
  reachLoop function blocks.length [0] (markReachable blocks 0)

/-! ## Fixed points -/

def incoming (blocks : List (Block w)) (index : Nat) (block : Block w) : BitVec w :=
  let state := if index = 0 then function.metadata.parameterSlots.foldl BitSet.insert 0
    else BitVec.allOnes w
  block.predecessors.foldl (fun state previous =>
    match blocks[previous]? with
    | some block => if block.reachable then state &&& block.initialized else state
    | none => state) state

def liveOut (blocks : List (Block w)) (block : Block w) : BitVec w :=
  block.successors.foldl (fun state next =>
    match blocks[next]? with
    | some block => state ||| block.live
    | none => state) 0

/-- Depth-first, each block after the blocks it leads to. -/
def postorderLoop (blocks : List (Block w)) :
    Nat → List (Nat × Nat) → List Bool → List Nat → FlowM (List Nat)
  | _, [], _, order => return order
  | 0, _ :: _, _, _ => invalid function workLimit
  | fuel + 1, (index, edge) :: stack, visited, order => do
    charge function 1
    let block ← blockAt blocks index
    match block.successors[edge]? with
    | some next =>
      if visited.getD next true then
        postorderLoop blocks fuel ((index, edge + 1) :: stack) visited order
      else
        postorderLoop blocks fuel ((next, 0) :: (index, edge + 1) :: stack)
          (visited.set next true) order
    | none => postorderLoop blocks fuel stack visited (order ++ [index])

def postorder (blocks : List (Block w)) : FlowM (List Nat) := do
  charge function (blocks.length * 3)
  postorderLoop function blocks (maxFlowWork + 1) [(0, 0)]
    ((List.replicate blocks.length false).set 0 true) []

/-- The new value of a block, from its neighbours. -/
def transferOf (direction : Direction) (blocks : List (Block w)) (index : Nat) (block : Block w) :
    BitVec w :=
  match direction with
  | .initialization => incoming function blocks index block ||| block.defines
  | .liveness => (liveOut blocks block &&& ~~~ block.defines) ||| block.uses

def currentOf (direction : Direction) (block : Block w) : BitVec w :=
  match direction with
  | .initialization => block.initialized
  | .liveness => block.live

def setCurrent (direction : Direction) (state : BitVec w) (block : Block w) : Block w :=
  match direction with
  | .initialization => { block with initialized := state }
  | .liveness => { block with live := state }

/-- The blocks a block's new value is computed from. -/
def sourcesOf (direction : Direction) (block : Block w) : List Nat :=
  match direction with
  | .initialization => block.predecessors
  | .liveness => block.successors

/-- The blocks whose value depends on a block's. -/
def dependentsOf (direction : Direction) (block : Block w) : List Nat :=
  match direction with
  | .initialization => block.successors
  | .liveness => block.predecessors

def enqueue (blocks : List (Block w)) :
    List Nat → List Nat → List Bool → FlowM (List Nat × List Bool)
  | [], pending, queued => return (pending, queued)
  | next :: edges, pending, queued => do
    charge function 1
    let block ← blockAt blocks next
    if block.reachable && !queued.getD next true then
      enqueue blocks edges (pending ++ [next]) (queued.set next true)
    else enqueue blocks edges pending queued

def propagateLoop (direction : Direction) :
    Nat → List Nat → List Bool → List (Block w) → FlowM (List (Block w))
  | _, [], _, blocks => return blocks
  | 0, _ :: _, _, _ => invalid function workLimit
  | fuel + 1, index :: pending, queued, blocks => do
    let queued := queued.set index false
    let block ← blockAt blocks index
    charge function (wordCount function * ((sourcesOf direction block).length + 3) + 1)
    let state := transferOf function direction blocks index block
    if currentOf direction block = state then
      propagateLoop direction fuel pending queued blocks
    else do
      let blocks := blocks.modify index (setCurrent direction state)
      let (pending, queued) ← enqueue function blocks (dependentsOf direction block) pending queued
      propagateLoop direction fuel pending queued blocks

def propagate (order : List Nat) (direction : Direction) (blocks : List (Block w)) :
    FlowM (List (Block w)) := do
  charge function (blocks.length + order.length)
  let queued := blocks.map (·.reachable)
  let pending := match direction with
    | .initialization => order.reverse
    | .liveness => order
  propagateLoop function direction (maxFlowWork + 1) pending queued blocks

def fixedPoints (blocks : List (Block w)) : FlowM (List (Block w)) := do
  let order ← postorder function blocks
  let blocks ← propagate function order .initialization blocks
  propagate function order .liveness blocks

/-! ## Program points -/

/-- Every slot is initialized where it is read. -/
def checkInitialized : List Nat → BitVec w → FlowM Unit
  | [], _ => return ()
  | pc :: pcs, initialized => do
    let instruction ← instructionAt function pc
    let slots ← inputs function availability pc
    charge function (slots.length + 1)
    if slots.any (fun slot => !BitSet.contains initialized slot) then
      invalid function "uninitialized executable slot"
    else checkInitialized pcs (instruction.slotOutput.elim initialized (BitSet.insert initialized))

mutual

/-- A host capability stored inline, not behind an owned object. -/
def inlineHost : Ty → Bool
  | .host _ => true
  | .reference _ _ => true
  | .tuple items => inlineHostAny items
  | _ => false
termination_by structural ty => ty

def inlineHostAny : List Ty → Bool
  | [] => false
  | ty :: types => inlineHost ty || inlineHostAny types
termination_by structural types => types

end

def hostLive (live : BitVec w) : Bool :=
  (function.metadata.slots.zipIdx).any fun (physical, slot) =>
    BitSet.contains live slot &&
      (physical == .hostHandle || (function.metadata.semantic.slots.lookup slot).any inlineHost)

/-- The bytes of one `AwaitLiveness` record. -/
def awaitBytes : Nat := 24

def retainAwait : FlowM Unit := do
  let budget ← get
  let retainedBytes := budget.retainedBytes + (wordCount function * 8 + awaitBytes)
  set { budget with retainedBytes }
  if retainedBytes > maxFlowBytes then invalid function "async suspension facts size limit"

/-- Backwards over a block: the slots live at each await. -/
def checkAwaits : List Nat → BitVec w → FlowM (List (AwaitLiveness w))
  | [], _ => return []
  | pc :: pcs, live => do
    let instruction ← instructionAt function pc
    let live := instruction.slotOutput.elim live (BitSet.remove live)
    let slots ← inputs function availability pc
    charge function (slots.length + 1)
    let live := slots.foldl BitSet.insert live
    match instruction with
    | .await _ _ _ => do
      charge function function.metadata.slots.length
      if hostLive function live then invalid function "host capability live across await"
      else do
        retainAwait function
        let points ← checkAwaits pcs live
        return ⟨pc, live⟩ :: points
    | _ => checkAwaits pcs live

def checkBlocks (all : List (Block w)) :
    List (Block w) → Nat → FlowM (List (AwaitLiveness w))
  | [], _ => return []
  | block :: blocks, index =>
    if block.reachable then do
      let pcs := List.range' block.start (block.stop - block.start)
      checkInitialized function availability pcs (incoming function all index block)
      let points ← checkAwaits function availability pcs.reverse (liveOut all block)
      let rest ← checkBlocks all blocks (index + 1)
      return points ++ rest
    else checkBlocks all blocks (index + 1)

def checkPoints (blocks : List (Block w)) : FlowM (List (AwaitLiveness w)) := do
  let points ← checkBlocks function availability blocks blocks 0
  return points.mergeSort fun a b => a.instruction ≤ b.instruction

end Flow

mutual

/-- A reference in a value of the type; callable signatures describe future inputs. -/
def containsStoredReference : Ty → Bool
  | .reference _ _ => true
  | .struct n => containsStoredReferenceNominal n
  | .nativeObject n => containsStoredReferenceNominal n
  | .enum n => containsStoredReferenceNominal n
  | .trait n => containsStoredReferenceNominal n
  | .projection arguments receiver interface _ =>
    containsStoredReference receiver || containsStoredReferenceNominal interface ||
      containsStoredReferenceAny arguments
  | .tuple items => containsStoredReferenceAny items
  | .function _ _ => false
  | .array item => containsStoredReference item
  | .set item _ => containsStoredReference item
  | .iter item => containsStoredReference item
  | .range item _ => containsStoredReference item
  | .map key value _ => containsStoredReference key || containsStoredReference value
  | .builtin _ => false
  | .host _ => false
  | .parameter _ _ => false
  | .selfType _ => false
termination_by structural ty => ty

def containsStoredReferenceAny : List Ty → Bool
  | [] => false
  | ty :: types => containsStoredReference ty || containsStoredReferenceAny types
termination_by structural types => types

def containsStoredReferenceNominal : Nominal Ty → Bool
  | ⟨_, arguments, bindings⟩ =>
    containsStoredReferenceAny arguments || containsStoredReferenceBindings bindings
termination_by structural nominal => nominal

def containsStoredReferenceBindings : List (DefinitionId × Ty) → Bool
  | [] => false
  | binding :: bindings =>
    containsStoredReferenceBinding binding || containsStoredReferenceBindings bindings
termination_by structural bindings => bindings

def containsStoredReferenceBinding : DefinitionId × Ty → Bool
  | (_, ty) => containsStoredReference ty
termination_by structural binding => binding

end

structure FlowResult (w : Nat) where
  awaits : List (AwaitLiveness w)
  blocks : List (Block w)

/-- `flow::verify`. -/
def verifyFlow {P : Type} (function : BytecodeFunction P) :
    FlowM (FlowResult (width function)) :=
  if function.metadata.effects.maySuspend &&
      function.metadata.semantic.params.any (fun entry => containsStoredReference entry.2) then
    invalid function "a scoped reference cannot be retained in a resume body"
  else if function.metadata.debug.localLiveRanges.length * nodeBytes > maxFlowBytes then
    invalid function "executable flow analysis state limit"
  else do
    let availability ← DebugAvailability.new (charge function)
      function.metadata.debug.localLiveRanges
    let blocks ← graph function availability
    let blocks ← reachability function blocks
    let blocks ← fixedPoints function blocks
    let awaits ← checkPoints function availability blocks
    return ⟨awaits, blocks⟩

end Kagari.Bytecode
