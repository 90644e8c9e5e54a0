import Kagari.Mir.Copies
import Kagari.Mir.Verify.Analysis

/-!
# Removal of dead operations

`kagari-mir/src/passes/dead.rs` and `passes/compaction.rs`: a backwards sweep over each reachable
block, from the live set of its seal, finds the operations without effect whose result is not live.
They are deleted from the three columns of their block, in place. The table of live temporaries, a
`Vec` in the source, is a function.
-/

namespace Kagari.Mir

/-- A verified function with the facts of its seal. -/
structure Sealed (P : Type) where
  function : MirFunction P
  analysis : FunctionAnalysis function.width

namespace Dead

section Find

variable {P : Type}

/-- No effect, and the result is not live. -/
def isDead (i : Instruction P) (live : TempId → Bool) : Bool :=
  i.output.any fun dst => !live dst.temp && i.effects == {}

/-- What is live before an instruction that stays. -/
def liveAbove (i : Instruction P) (live : TempId → Bool) : TempId → Bool :=
  (i.inputs.map (·.temp)).foldl (fun live t => Function.update live t true)
    (i.output.elim live fun dst => Function.update live dst.temp false)

/-- The indices of the dead instructions, last one first. Operands of a dead instruction do not make
its producers live. -/
def sweep : List (Instruction P × Nat) → (TempId → Bool) → PassM (List Nat)
  | [], _ => return []
  | (i, index) :: rest, live => do
    Work.charge 1
    if isDead i live then
      let removals ← sweep rest live
      return index :: removals
    else
      Work.charge i.inputs.length
      sweep rest (liveAbove i live)

/-- The temporaries that are live before the terminator. -/
def liveTemps (sealedFunction : Sealed P) (b : BlockId) : TempId → Bool := fun t =>
  decide (t < sealedFunction.function.temps.length) &&
    Lib.BitSet.contains (terminatorLive sealedFunction.analysis b) t

def reachable (sealedFunction : Sealed P) (b : BlockId) : Bool :=
  (sealedFunction.analysis[b]?).elim false (·.reachable)

def findBlocks (sealedFunction : Sealed P) (function : Nat) :
    List (BasicBlock P) → BlockId → PassM (List (Nat × BlockId × Nat))
  | [], _ => return []
  | block :: blocks, b =>
    if reachable sealedFunction b then do
      Work.charge sealedFunction.function.temps.length
      let removals ← sweep block.instructions.zipIdx.reverse (liveTemps sealedFunction b)
      let rest ← findBlocks sealedFunction function blocks (b + 1)
      return removals.map (fun index => (function, b, index)) ++ rest
    else findBlocks sealedFunction function blocks (b + 1)

def findFunctions : List (Sealed P) → Nat → PassM (List (Nat × BlockId × Nat))
  | [], _ => return []
  | sealedFunction :: functions, function => do
    let removals ← findBlocks sealedFunction function sealedFunction.function.blocks 0
    let rest ← findFunctions functions (function + 1)
    return removals ++ rest

/-- `dead::find`: contiguous groups of functions and blocks, with descending indices. -/
def find (functions : List (Sealed P)) : PassM (List (Nat × BlockId × Nat)) := findFunctions functions 0

end Find

/-! ## Compaction -/

section Compaction

variable {P : Type}

/-- `slice::swap`. -/
def swap {α : Type} (xs : List α) (a b : Nat) : List α :=
  match xs[a]?, xs[b]? with
  | some x, some y => (xs.set a y).set b x
  | _, _ => xs

/-- One decision for all three columns. -/
def swapRows (block : BasicBlock P) (a b : Nat) : BasicBlock P :=
  { block with
    instructions := swap block.instructions a b
    instructionSpans := swap block.instructionSpans a b
    instructionScopes := swap block.instructionScopes a b }

def truncateRows (block : BasicBlock P) (length : Nat) : BasicBlock P :=
  { block with
    instructions := block.instructions.take length
    instructionSpans := block.instructionSpans.take length
    instructionScopes := block.instructionScopes.take length }

/-- Move what is retained to the front; the dead rows gather in the tail. -/
def retainRows : Nat → Nat → Nat → List Nat → BasicBlock P → PassM (BasicBlock P × Nat)
  | 0, _, retained, _, block => return (block, retained)
  | steps + 1, read, retained, removals, block => do
    Work.charge 1
    if removals.head? = some read then
      retainRows steps (read + 1) retained removals.tail block
    else if retained ≠ read then
      Work.charge 6
      retainRows steps (read + 1) (retained + 1) removals (swapRows block retained read)
    else
      retainRows steps (read + 1) (retained + 1) removals block

/-- Drop the tail, in batches of 256. -/
def dropTail (retained : Nat) : Nat → BasicBlock P → PassM (BasicBlock P)
  | 0, block => return block
  | fuel + 1, block =>
    if block.instructions.length > retained then do
      let stop := max (block.instructions.length - 256) retained
      Work.charge (3 * (block.instructions.length - stop))
      dropTail retained fuel (truncateRows block stop)
    else return block

/-- The indices are valid, unique and ascending. -/
def compactBlock (block : BasicBlock P) (removals : List Nat) : PassM (BasicBlock P) := do
  let (block, retained) ← retainRows block.instructions.length 0 0 removals block
  dropTail retained block.instructions.length block

def chargeEach : Nat → PassM Unit
  | 0 => return ()
  | count + 1 => do
    Work.charge 1
    chargeEach count

/-- Compact one block of one function. -/
def compactAt (functions : List (MirFunction P)) (function : Nat) (b : BlockId) (removals : List Nat) :
    PassM (List (MirFunction P)) :=
  match functions[function]? with
  | none => return functions
  | some f =>
    match f.blocks[b]? with
    | none => return functions
    | some block => do
      let block ← compactBlock block removals
      return functions.set function { f with blocks := f.blocks.set b block }

def inGroup (function : Nat) (b : BlockId) (removal : Nat × BlockId × Nat) : Bool :=
  removal.1 == function && removal.2.1 == b

/-- The groups of removals, one after another. -/
def applyGroups : Nat → List (MirFunction P) → List (Nat × BlockId × Nat) → PassM (List (MirFunction P))
  | 0, functions, _ => return functions
  | _ + 1, functions, [] => return functions
  | fuel + 1, functions, (function, b, index) :: removals => do
    let group := ((function, b, index) :: removals).takeWhile (inGroup function b)
    chargeEach group.length
    let functions ← compactAt functions function b (group.reverse.map (·.2.2))
    applyGroups fuel functions (((function, b, index) :: removals).dropWhile (inGroup function b))

/-- `compaction::apply`. Every group has at least one removal. -/
def apply (functions : List (MirFunction P)) (removals : List (Nat × BlockId × Nat)) :
    PassM (List (MirFunction P)) :=
  applyGroups removals.length functions removals

end Compaction

end Dead

end Kagari.Mir
