import Kagari.Lib.BitSet
import Kagari.Mir.Verify.Context

/-!
# Definite initialization

`kagari-mir/src/verify/flow.rs`: the reachable blocks and their predecessors, the fixed point of
definite initialization on a worklist, and the check of every read in a reachable block.

Loops that charge the budget on every turn take it as their fuel. A bit set, `Vec<u64>` in the
source, is one `BitVec` of all its words: the temporaries first, then the locals. A table over the
blocks, a `Vec` in the source, is a function of the block.
-/

namespace Kagari.Mir

open Lib

section Flow

variable {P : Type} (f : MirFunction P) (context : Context)

/-- The words of a bit set over temporaries and locals. -/
def MirFunction.words : Nat := (f.temps.length + f.locals.length + 63) / 64

/-- The bits of those words. -/
abbrev MirFunction.width : Nat := 64 * f.words

structure Initialization (w : Nat) where
  reachable : BlockId → Bool
  predecessors : BlockId → List BlockId
  entries : BlockId → BitVec w

def maxFlowBytes : Nat := 64 * 1024 * 1024

/-- Record `id` as a predecessor of each target. -/
def pushPredecessor (id : BlockId) (targets : List BlockId) (predecessors : BlockId → List BlockId) :
    BlockId → List BlockId :=
  targets.foldl (fun table target => Function.update table target (table target ++ [id]))
    predecessors

def reachLoop : Nat → List BlockId → (BlockId → Bool) → (BlockId → List BlockId) →
    VerifyM ((BlockId → Bool) × (BlockId → List BlockId))
  | _, [], reachable, predecessors => return (reachable, predecessors)
  | 0, _ :: _, _, _ => context.error (.limit "MIR analysis work" maxAnalysisWork)
  | fuel + 1, id :: pending, reachable, predecessors => do
    context.work 1
    if reachable id then reachLoop fuel pending reachable predecessors
    else
      let targets := f.successorsAt id
      reachLoop fuel (targets.reverse ++ pending) (Function.update reachable id true)
        (pushPredecessor id targets predecessors)

def incoming {w : Nat} (predecessors : BlockId → List BlockId) (outputs : BlockId → BitVec w)
    (index : BlockId) : BitVec w :=
  if index = f.entry then
    (f.params.map fun param => f.temps.length + param.localId).foldl BitSet.insert 0
  else (predecessors index).foldl (fun state p => state &&& outputs p) (BitVec.allOnes w)

/-- The bits that an instruction sets: its destination, or the local it stores to. -/
def definedSlots (i : Instruction P) : List Nat :=
  (i.output.map (·.temp)).toList ++
    match i with
    | .storeLocal l _ => [f.temps.length + l]
    | _ => []

def define {w : Nat} (i : Instruction P) (state : BitVec w) : BitVec w :=
  (definedSlots f i).foldl BitSet.insert state

/-- The state after a block's instructions, one charge for each. -/
def defineAll {w : Nat} : List (Instruction P) → BitVec w → VerifyM (BitVec w)
  | [], state => return state
  | i :: code, state => do
    context.work 1
    defineAll code (define f i state)

def instructionsAt (index : BlockId) : List (Instruction P) :=
  (f.blocks[index]?).elim [] (·.instructions)

/-- Queue the targets that are not queued yet. -/
def enqueueTargets : List BlockId → List BlockId → (BlockId → Bool) → List BlockId × (BlockId → Bool)
  | [], queue, queued => (queue, queued)
  | target :: targets, queue, queued =>
    if queued target then enqueueTargets targets queue queued
    else enqueueTargets targets (queue ++ [target]) (Function.update queued target true)

def blockWork (predecessors : BlockId → List BlockId) (index : BlockId) : Nat :=
  f.words * ((predecessors index).length + 1) + f.params.length + 1

def solveLoop {w : Nat} (predecessors : BlockId → List BlockId) :
    Nat → List BlockId → (BlockId → Bool) → (BlockId → BitVec w) → VerifyM (BlockId → BitVec w)
  | _, [], _, outputs => return outputs
  | 0, _ :: _, _, _ => context.error (.limit "MIR analysis work" maxAnalysisWork)
  | fuel + 1, index :: queue, queued, outputs => do
    let queued := Function.update queued index false
    context.checkCancel
    context.work (blockWork f predecessors index)
    let state ← defineAll f context (instructionsAt f index) (incoming f predecessors outputs index)
    if state = outputs index then solveLoop predecessors fuel queue queued outputs
    else
      let (queue, queued) := enqueueTargets (f.successorsAt index) queue queued
      solveLoop predecessors fuel queue queued (Function.update outputs index state)

def checkInputs {w : Nat} (state : BitVec w) : List MirValue → VerifyM Unit
  | [] => return ()
  | v :: inputs => do
    context.ensure (BitSet.contains state v.temp) (.uninitializedTemp v.temp)
    checkInputs state inputs

def checkLocalRead {w : Nat} (state : BitVec w) : Instruction P → VerifyM Unit
  | .loadLocal _ l =>
    context.ensure (BitSet.contains state (f.temps.length + l)) (.uninitializedLocal l)
  | _ => return ()

/-- Every read of a block's instructions; the state after them. -/
def checkReads {w : Nat} (block : BasicBlock P) : List (Instruction P) → Nat → BitVec w →
    VerifyM (BitVec w)
  | [], _, state => return state
  | i :: code, index, state => do
    let context := { context with instruction := some index, span := block.instructionSpans[index]? }
    context.work (i.inputs.length + 1)
    checkInputs context state i.inputs
    checkLocalRead f context state i
    checkReads block code (index + 1) (define f i state)

def checkBlock {w : Nat} (state : BitVec w) (block : BasicBlock P) : VerifyM Unit := do
  let state ← checkReads f context block block.instructions 0 state
  checkInputs { context with span := block.terminatorSpan } state
    (block.terminator.bind (·.input)).toList

/-- The blocks in order; what holds when each reachable one starts. -/
def checkFlowBlocks {w : Nat} (reachable : BlockId → Bool) (predecessors : BlockId → List BlockId)
    (outputs : BlockId → BitVec w) :
    List (BasicBlock P) → BlockId → (BlockId → BitVec w) → VerifyM (BlockId → BitVec w)
  | [], _, entries => return entries
  | block :: blocks, index, entries =>
    if reachable index then do
      let context := { context with block := some index }
      context.work (blockWork f predecessors index)
      let state := incoming f predecessors outputs index
      checkBlock f context state block
      checkFlowBlocks reachable predecessors outputs blocks (index + 1)
        (Function.update entries index state)
    else checkFlowBlocks reachable predecessors outputs blocks (index + 1) entries

/-- `flow::verify`. -/
def verifyFlow : VerifyM (Initialization f.width) := do
  let (reachable, predecessors) ←
    reachLoop f context (maxAnalysisWork + 1) [f.entry] (fun _ => false) (fun _ => [])
  let queue := (List.range f.blocks.length).filter reachable
  let outputs ← solveLoop f context predecessors (maxAnalysisWork + 1) queue reachable
    (fun _ => BitVec.allOnes f.width)
  let entries ← checkFlowBlocks f context reachable predecessors outputs f.blocks 0 (fun _ => 0)
  return { reachable, predecessors, entries }

def checkSize : VerifyM Unit :=
  context.limit (f.blocks.length * f.words * 8) maxFlowBytes "definite-initialization state bytes"

end Flow

end Kagari.Mir
