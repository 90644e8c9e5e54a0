import Kagari.Mir.Verify.Flow

/-!
# Debug availability and liveness

`kagari-mir/src/analysis.rs`, `verify/analysis.rs` and `verify/suspension.rs`: the facts recorded
for every logical point (one for each instruction, then one for the terminator), and the check that
no host capability is live across an await.
-/

namespace Kagari.Mir

open Lib

inductive SafepointKind where
  | poll | runtime | controlFlow
deriving DecidableEq

structure PointAnalysis (w : Nat) where
  logicalOffset : Nat
  live : BitVec w
  roots : BitVec w
  debugAvailable : BitVec w
  safepoint : SafepointKind

structure BlockAnalysis (w : Nat) where
  reachable : Bool
  points : List (PointAnalysis w)

abbrev FunctionAnalysis (w : Nat) := List (BlockAnalysis w)

/-- The live set of a block's last point, its terminator. -/
def terminatorLive {w : Nat} (analysis : FunctionAnalysis w) (b : Nat) : BitVec w :=
  ((analysis[b]?).bind (·.points.getLast?)).elim 0 (·.live)

/-- The bytes of the records `PointAnalysis`, `BlockAnalysis` and `FunctionAnalysis`. -/
def pointRecord : Nat := 136

def blockRecord : Nat := 32

def functionRecord : Nat := 24

section Analysis

variable {P : Type} (f : MirFunction P) (context : Context)

def analysisBytes : Nat :=
  let points := f.blocks.foldl (fun count block => count + block.instructions.length + 1) 0
  functionRecord * 2 + points * (pointRecord + f.words * 24) +
    f.blocks.length * (blockRecord + f.words * 24 + 256) + f.words * 48

/-- Account for the facts before they are allocated. -/
def reserve : VerifyM Unit := do
  let budget ← get
  set { budget with bytes := budget.bytes + analysisBytes f }
  context.limit (budget.bytes + analysisBytes f) maxAnalysisBytes "MIR analysis state bytes"

def safepointOf : Option (Instruction P) → SafepointKind
  | none => .controlFlow
  | some i =>
    if i.effects.calls || i.effects.allocates || i.effects.touchesRuntime then .runtime else .poll

/-- Up the lexical scopes: the locals that are initialized. -/
def visibleLocals {w : Nat} (state : BitVec w) : Nat → Option Nat → BitVec w → VerifyM (BitVec w)
  | _, none, available => return available
  | 0, some _, _ => context.error (.limit "MIR analysis work" maxAnalysisWork)
  | fuel + 1, some cursor, available => do
    context.work 1
    match f.debug.lexicalScopes[cursor]? with
    | none => return available
    | some scope =>
      let available := match scope.localId with
        | some l =>
          if BitSet.contains state (f.temps.length + l) then
            BitSet.insert available (f.temps.length + l)
          else available
        | none => available
      visibleLocals state fuel scope.parent available

def debugAvailableAt {w : Nat} (reachable : Bool) (scope : Nat) (state : BitVec w) :
    VerifyM (BitVec w) :=
  if reachable then do
    context.work f.params.length
    let available := (f.params.map fun param => f.temps.length + param.localId).foldl
      BitSet.insert 0
    visibleLocals f context state (maxAnalysisWork + 1) (some scope) available
  else return 0

def debugPointsOf {w : Nat} (reachable : Bool) (block : BasicBlock P) :
    List Nat → Nat → BitVec w → VerifyM (List (PointAnalysis w))
  | [], _, _ => return []
  | scope :: scopes, offset, state => do
    context.work (f.words + 1)
    let debugAvailable ← debugAvailableAt f context reachable scope state
    let i := block.instructions[offset]?
    let point :=
      { logicalOffset := 0, live := 0, roots := 0, debugAvailable, safepoint := safepointOf i }
    let points ← debugPointsOf reachable block scopes (offset + 1)
      (i.elim state fun i => define f i state)
    return point :: points

def debugPoints {w : Nat} (initialized : Initialization w) :
    List (BasicBlock P) → BlockId → VerifyM (FunctionAnalysis w)
  | [], _ => return []
  | block :: blocks, index => do
    let points ← debugPointsOf f context (initialized.reachable index) block
      (block.instructionScopes ++ block.terminatorScope.toList) 0 (initialized.entries index)
    let rest ← debugPoints initialized blocks (index + 1)
    return ⟨initialized.reachable index, points⟩ :: rest

/-- Number the points of a block, from an offset on. -/
def numberPoints {w : Nat} : List (PointAnalysis w) → Nat → VerifyM (List (PointAnalysis w) × Nat)
  | [], offset => return ([], offset)
  | point :: points, offset => do
    context.work 1
    let (points, stop) ← numberPoints points (offset + 1)
    return ({ point with logicalOffset := offset } :: points, stop)

def numberBlocks {w : Nat} : List BlockId → Nat → FunctionAnalysis w → VerifyM (FunctionAnalysis w)
  | [], _, blocks => return blocks
  | index :: order, offset, blocks => do
    match blocks[index]? with
    | none => numberBlocks order offset blocks
    | some block =>
      let (points, stop) ← numberPoints context block.points offset
      numberBlocks order stop (blocks.set index { block with points })

/-- The live slots just before the terminator. -/
def liveAtTerminator {w : Nat} (index : BlockId) (points : List (PointAnalysis w))
    (entries : BlockId → BitVec w) : VerifyM (BitVec w) := do
  context.work (f.words * 3 + 1)
  let state := (points.getLast?).elim 0 (·.debugAvailable)
  let state := (f.successorsAt index).foldl (fun state next => state ||| entries next) state
  return ((f.terminatorAt index).bind (·.input)).elim state fun v => BitSet.insert state v.temp

/-- Backwards over one instruction. -/
def transfer {w : Nat} (i : Instruction P) (point : PointAnalysis w) (state : BitVec w) :
    VerifyM (BitVec w) := do
  context.work (f.words + i.inputs.length + 1)
  let state := (definedSlots f i).foldl BitSet.remove state
  let state := (i.inputs.map (·.temp)).foldl BitSet.insert state
  let state := match i with
    | .loadLocal _ l => BitSet.insert state (f.temps.length + l)
    | _ => state
  return state ||| point.debugAvailable

def transferAll {w : Nat} : List (Instruction P × PointAnalysis w) → BitVec w → VerifyM (BitVec w)
  | [], state => return state
  | (i, point) :: rest, state => do
    let state ← transfer f context i point state
    transferAll rest state

/-- The instructions of a block with their points, last one first. -/
def reversedPoints {w : Nat} (index : BlockId) (points : List (PointAnalysis w)) :
    List (Instruction P × PointAnalysis w) :=
  ((instructionsAt f index).zip points).reverse

def liveLoop {w : Nat} (initialized : Initialization w) (blocks : FunctionAnalysis w) :
    Nat → List BlockId → (BlockId → Bool) → (BlockId → BitVec w) → VerifyM (BlockId → BitVec w)
  | _, [], _, entries => return entries
  | 0, _ :: _, _, _ => context.error (.limit "MIR analysis work" maxAnalysisWork)
  | fuel + 1, index :: queue, queued, entries => do
    let queued := Function.update queued index false
    let points := (blocks[index]?).elim [] (·.points)
    let state ← liveAtTerminator f context index points entries
    let state ← transferAll f context (reversedPoints f index points) state
    if state = entries index then liveLoop initialized blocks fuel queue queued entries
    else
      let (queue, queued) := enqueueTargets (initialized.predecessors index) queue queued
      liveLoop initialized blocks fuel queue queued (Function.update entries index state)

def liveEntries {w : Nat} (initialized : Initialization w) (blocks : FunctionAnalysis w) :
    VerifyM (BlockId → BitVec w) :=
  liveLoop f context initialized blocks (maxAnalysisWork + 1)
    ((List.range blocks.length).filter initialized.reachable) initialized.reachable (fun _ => 0)

/-- The slots that hold heap objects. -/
def heapSlots (w : Nat) : BitVec w :=
  let types := f.temps.map (·.ty) ++ f.locals.map (·.ty)
  ((types.zipIdx.filter fun (ty, _) => ty == .heapObject).map (·.2)).foldl BitSet.insert 0

def save {w : Nat} (state : BitVec w) (point : PointAnalysis w) : PointAnalysis w :=
  { point with live := state, roots := state &&& heapSlots f w }

/-- Record the live slots of each point, last one first. -/
def recordPoints {w : Nat} : List (Instruction P × PointAnalysis w) → BitVec w →
    VerifyM (List (PointAnalysis w))
  | [], _ => return []
  | (i, point) :: rest, state => do
    let state ← transfer f context i point state
    let points ← recordPoints rest state
    return save f state point :: points

def recordLiveness {w : Nat} (entries : BlockId → BitVec w) :
    FunctionAnalysis w → BlockId → VerifyM (FunctionAnalysis w)
  | [], _ => return []
  | block :: blocks, index =>
    if block.reachable then do
      let state ← liveAtTerminator f context index block.points entries
      let points ← recordPoints f context (reversedPoints f index block.points) state
      let last := (block.points.getLast?).map (save f state)
      let rest ← recordLiveness entries blocks (index + 1)
      return { block with points := points.reverse ++ last.toList } :: rest
    else do
      let rest ← recordLiveness entries blocks (index + 1)
      return block :: rest

/-- `analysis::build`. -/
def buildAnalysis {w : Nat} (initialized : Initialization w) : VerifyM (FunctionAnalysis w) := do
  let blocks ← debugPoints f context initialized f.blocks 0
  let blocks ← numberBlocks context f.emissionOrder 0 blocks
  let entries ← liveEntries f context initialized blocks
  recordLiveness f context entries blocks 0

/-! ## Only resources stop the analysis -/

section Fails

variable {w : Nat}

theorem reserve_fails : Fails (reserve f context) MirVerificationError.Resource := by
  intro s e hrun
  exact context.limit_fails _ _ _ _ e hrun

theorem visibleLocals_fails (state : BitVec w) (fuel : Nat) : ∀ cursor available,
    Fails (visibleLocals f context state fuel cursor available) MirVerificationError.Resource := by
  induction fuel with
  | zero =>
    intro cursor available
    cases cursor with
    | none => exact .pure
    | some cursor => exact .throw trivial
  | succ fuel ih =>
    intro cursor available
    cases cursor with
    | none => exact .pure
    | some cursor =>
      refine .seq (context.work_fails 1) (fun _ => ?_)
      split
      · exact .pure
      · exact ih _ _

theorem debugAvailableAt_fails (reachable : Bool) (scope : Nat) (state : BitVec w) :
    Fails (debugAvailableAt f context reachable scope state) MirVerificationError.Resource := by
  unfold debugAvailableAt
  split
  · exact .seq (context.work_fails _) (fun _ => visibleLocals_fails f context _ _ _ _)
  · exact .pure

theorem debugPointsOf_fails (reachable : Bool) (block : BasicBlock P) (scopes : List Nat) :
    ∀ (offset : Nat) (state : BitVec w),
      Fails (debugPointsOf f context reachable block scopes offset state)
        MirVerificationError.Resource := by
  induction scopes with
  | nil => exact fun offset state => .pure
  | cons scope scopes ih =>
    intro offset state
    refine .seq (context.work_fails _) (fun _ => ?_)
    refine .seq (debugAvailableAt_fails f context _ _ _) (fun _ => ?_)
    exact .seq (ih _ _) (fun _ => .pure)

theorem debugPoints_fails (initialized : Initialization w) (blocks : List (BasicBlock P)) :
    ∀ index, Fails (debugPoints f context initialized blocks index)
      MirVerificationError.Resource := by
  induction blocks with
  | nil => exact fun index => .pure
  | cons block blocks ih =>
    intro index
    refine .seq (debugPointsOf_fails f context _ _ _ _ _) (fun _ => ?_)
    exact .seq (ih _) (fun _ => .pure)

theorem numberPoints_fails (points : List (PointAnalysis w)) : ∀ offset,
    Fails (numberPoints context points offset) MirVerificationError.Resource := by
  induction points with
  | nil => exact fun offset => .pure
  | cons point points ih =>
    intro offset
    refine .seq (context.work_fails 1) (fun _ => ?_)
    exact .seq (ih _) (fun _ => .pure)

theorem numberBlocks_fails (order : List BlockId) : ∀ offset (blocks : FunctionAnalysis w),
    Fails (numberBlocks context order offset blocks) MirVerificationError.Resource := by
  induction order with
  | nil => exact fun offset blocks => .pure
  | cons index order ih =>
    intro offset blocks
    unfold numberBlocks
    split
    · exact ih _ _
    · exact .seq (numberPoints_fails context _ _) (fun _ => ih _ _)

theorem liveAtTerminator_fails (index : BlockId) (points : List (PointAnalysis w))
    (entries : BlockId → BitVec w) :
    Fails (liveAtTerminator f context index points entries) MirVerificationError.Resource :=
  Fails.seq (context.work_fails _) (fun _ => .pure)

theorem transfer_fails (i : Instruction P) (point : PointAnalysis w) (state : BitVec w) :
    Fails (transfer f context i point state) MirVerificationError.Resource :=
  Fails.seq (context.work_fails _) (fun _ => .pure)

theorem transferAll_fails (code : List (Instruction P × PointAnalysis w)) : ∀ state,
    Fails (transferAll f context code state) MirVerificationError.Resource := by
  induction code with
  | nil => exact fun state => .pure
  | cons entry code ih => exact fun state => .seq (transfer_fails f context _ _ _) (fun _ => ih _)

theorem liveLoop_fails (initialized : Initialization w) (blocks : FunctionAnalysis w) (fuel : Nat) :
    ∀ queue queued entries, Fails (liveLoop f context initialized blocks fuel queue queued entries)
      MirVerificationError.Resource := by
  induction fuel with
  | zero =>
    intro queue queued entries
    cases queue with
    | nil => exact .pure
    | cons index queue => exact .throw trivial
  | succ fuel ih =>
    intro queue queued entries
    cases queue with
    | nil => exact .pure
    | cons index queue =>
      refine .seq (liveAtTerminator_fails f context _ _ _) (fun _ => ?_)
      refine .seq (transferAll_fails f context _ _) (fun _ => ?_)
      split
      · exact ih _ _ _
      · exact ih _ _ _

theorem recordPoints_fails (code : List (Instruction P × PointAnalysis w)) : ∀ state,
    Fails (recordPoints f context code state) MirVerificationError.Resource := by
  induction code with
  | nil => exact fun state => .pure
  | cons entry code ih =>
    intro state
    refine .seq (transfer_fails f context _ _ _) (fun _ => ?_)
    exact .seq (ih _) (fun _ => .pure)

theorem recordLiveness_fails (entries : BlockId → BitVec w) (blocks : FunctionAnalysis w) :
    ∀ index, Fails (recordLiveness f context entries blocks index)
      MirVerificationError.Resource := by
  induction blocks with
  | nil => exact fun index => .pure
  | cons block blocks ih =>
    intro index
    unfold recordLiveness
    split
    · refine .seq (liveAtTerminator_fails f context _ _ _) (fun _ => ?_)
      refine .seq (recordPoints_fails f context _ _) (fun _ => ?_)
      exact .seq (ih _) (fun _ => .pure)
    · exact .seq (ih _) (fun _ => .pure)

theorem buildAnalysis_fails (initialized : Initialization w) :
    Fails (buildAnalysis f context initialized) MirVerificationError.Resource := by
  refine .seq (debugPoints_fails f context _ _ _) (fun _ => ?_)
  refine .seq (numberBlocks_fails context _ _ _) (fun _ => ?_)
  refine .seq (liveLoop_fails f context _ _ _ _ _ _) (fun _ => ?_)
  exact recordLiveness_fails f context _ _ _

end Fails

/-! ## Suspension -/

mutual

/-- A host capability stored inline. -/
def inlineHost : Ty → Bool
  | .host _ => true
  | .tuple items => inlineHostAny items
  | _ => false
termination_by structural ty => ty

def inlineHostAny : List Ty → Bool
  | [] => false
  | ty :: types => inlineHost ty || inlineHostAny types
termination_by structural types => types

end

def ephemeral (physical : ValueType) (semantic : Option Ty) : Bool :=
  physical == .hostHandle || semantic.any inlineHost

/-- A live temporary or local that must not be kept across an await. -/
def unsafeLive {w : Nat} (live : BitVec w) : Bool :=
  (f.temps.zipIdx.any fun (temp, index) =>
    BitSet.contains live index && ephemeral temp.ty (f.registerType index)) ||
  (f.locals.zipIdx.any fun (l, index) =>
    BitSet.contains live (f.temps.length + index) &&
      ephemeral l.ty (f.semantic.locals.lookup index))

/-- No host capability is live across an await. -/
def checkAwait {w : Nat} (live : BitVec w) : Instruction P → VerifyM Unit
  | .await _ _ _ => do
    context.work (f.temps.length + f.locals.length)
    context.ensure (!unsafeLive f live)
      (.contract (.invalidOperation "host capability live across await"))
  | _ => return ()

def checkSuspension {w : Nat} (block : BasicBlock P) (points : List (PointAnalysis w)) :
    List (Instruction P) → Nat → VerifyM Unit
  | [], _ => return ()
  | i :: code, index => do
    let context := { context with instruction := some index, span := block.instructionSpans[index]? }
    context.work 1
    checkAwait f context ((points[index]?).elim 0 (·.live)) i
    checkSuspension block points code (index + 1)

def pushUnvisited : List BlockId → List BlockId → (BlockId → Bool) →
    VerifyM (List BlockId × (BlockId → Bool))
  | [], pending, visited => return (pending, visited)
  | target :: targets, pending, visited => do
    context.work 1
    if visited target then pushUnvisited targets pending visited
    else pushUnvisited targets (target :: pending) (Function.update visited target true)

def suspensionLoop {w : Nat} (analysis : FunctionAnalysis w) :
    Nat → List BlockId → (BlockId → Bool) → VerifyM Unit
  | _, [], _ => return ()
  | 0, _ :: _, _ => context.error (.limit "MIR analysis work" maxAnalysisWork)
  | fuel + 1, id :: pending, visited => do
    (f.blocks[id]?).forM fun block =>
      checkSuspension f { context with block := some id } block
        ((analysis[id]?).elim [] (·.points)) block.instructions 0
    let (pending, visited) ← pushUnvisited context (f.successorsAt id) pending visited
    suspensionLoop analysis fuel pending visited

/-- `suspension::verify`. Every block is pushed at most once. -/
def verifySuspension {w : Nat} (analysis : FunctionAnalysis w) : VerifyM Unit :=
  if f.effects.maySuspend then
    suspensionLoop f context analysis (f.blocks.length + 1) [f.entry]
      (Function.update (fun _ => false) f.entry true)
  else return ()

end Analysis

end Kagari.Mir
