import Kagari.Mir.Copies

/-!
# Loop rotation

`kagari-mir/src/passes/rotation.rs`: a closed scalar condition at a loop's header is duplicated, with
fresh temporaries, onto the jump backedges that the header dominates. The original header remains
the entry guard.

As in the copy pass, tables are functions and the work limit is the fuel of the search.
-/

namespace Kagari.Mir

open Lib

def maxCondition : Nat := 16

def maxDuplicated : Nat := 256

section Rotation

variable {P : Type}

def pushJump (index : BlockId) (terminator : Option Terminator)
    (predecessors : BlockId → List BlockId) : BlockId → List BlockId :=
  match terminator with
  | some (.jump target) => Function.update predecessors target (predecessors target ++ [index])
  | _ => predecessors

/-- The sources of jumps to each block. -/
def jumpPredecessors : List (BasicBlock P) → BlockId → (BlockId → List BlockId) →
    PassM (BlockId → List BlockId)
  | [], _, predecessors => return predecessors
  | block :: blocks, index, predecessors => do
    Work.charge 1
    jumpPredecessors blocks (index + 1) (pushJump index block.terminator predecessors)

def BasicBlock.branches (block : BasicBlock P) : Bool :=
  match block.terminator with
  | some (.branch _ _ _) => true
  | _ => false

def isHeader (predecessors : BlockId → List BlockId) (index : BlockId) (block : BasicBlock P) : Bool :=
  !(predecessors index).isEmpty && block.branches && !block.instructions.isEmpty &&
    decide (block.instructions.length ≤ maxCondition)

/-- The blocks that end in a branch, are the target of a jump and have a short condition. -/
def headersOf (f : MirFunction P) (predecessors : BlockId → List BlockId) : List BlockId :=
  (List.range f.blocks.length).filter fun index =>
    (f.blocks[index]?).any (isHeader predecessors index)

def reachableLoop (f : MirFunction P) (excluded : Option BlockId) :
    Nat → List BlockId → (BlockId → Bool) → PassM (BlockId → Bool)
  | _, [], visited => return visited
  | 0, _ :: _, _ => do
    let work ← get
    Work.error (.limit "MIR optimization work" work.limit)
  | fuel + 1, block :: pending, visited => do
    Work.charge 1
    if some block = excluded || visited block then reachableLoop f excluded fuel pending visited
    else
      reachableLoop f excluded fuel ((f.successorsAt block).reverse ++ pending)
        (Function.update visited block true)

/-- The blocks that the entry reaches without going through the excluded one. -/
def reachable (f : MirFunction P) (excluded : Option BlockId) : PassM (BlockId → Bool) := do
  Work.charge f.blocks.length
  let work ← get
  reachableLoop f excluded (work.limit + 1) [f.entry] (fun _ => false)

/-- How often each temporary is defined, and the blocks that read it. -/
structure Usage where
  definitions : TempId → Nat
  users : TempId → List BlockId

def Usage.use (usage : Usage) (index : BlockId) (v : MirValue) : Usage :=
  { usage with users := Function.update usage.users v.temp (usage.users v.temp ++ [index]) }

def countUses (index : BlockId) : List (Instruction P) → Usage → PassM Usage
  | [], usage => return usage
  | i :: code, usage => do
    Work.charge (1 + i.inputs.length)
    let definitions := i.output.elim usage.definitions fun dst =>
      Function.update usage.definitions dst.temp (usage.definitions dst.temp + 1)
    countUses index code (i.inputs.foldl (·.use index) { usage with definitions })

def countAllUses : List (BasicBlock P) → BlockId → Usage → PassM Usage
  | [], _, usage => return usage
  | block :: blocks, index, usage => do
    let usage ← countUses index block.instructions usage
    countAllUses blocks (index + 1)
      ((block.terminator.bind (·.input)).elim usage (usage.use index))

def scalar : ValueType → Bool
  | .unit | .bool | .char | .i32 | .i64 | .u64 | .f32 | .f64 => true
  | _ => false

namespace Instruction

/-- The operations that a condition may consist of. -/
def duplicable : Instruction P → Bool
  | .loadConst _ _ | .loadLocal _ _ | .move _ _ | .unary _ _ _ | .binary _ _ _ _
  | .numeric _ _ _ _ | .convert _ _ _ => true
  | _ => false

end Instruction

/-- Each instruction of a condition reads only what the condition has computed, and computes a scalar
that no other block defines or reads; what is computed, or none. -/
def closedLoop (header : BlockId) (usage : Usage) : List (Instruction P) → List TempId →
    PassM (Option (List TempId))
  | [], outputs => return some outputs
  | i :: code, outputs => do
    Work.charge (1 + i.inputs.length)
    if i.duplicable && i.inputs.all (fun v => outputs.contains v.temp) then
      match i.output with
      | none => return none
      | some dst => do
        Work.charge (usage.users dst.temp).length
        if scalar dst.ty && usage.definitions dst.temp == 1 &&
            (usage.users dst.temp).all (· == header) then
          closedLoop header usage code (dst.temp :: outputs)
        else return none
    else return none

def closedCondition (block : BasicBlock P) (header : BlockId) (usage : Usage) : PassM Bool := do
  let outputs ← closedLoop header usage block.instructions []
  return outputs.any fun outputs =>
    (block.terminator.bind (·.input)).any fun cond => outputs.contains cond.temp

/-- The headers whose condition is closed, with their blocks. -/
def closedConditions (f : MirFunction P) (usage : Usage) : List BlockId →
    PassM (List (BlockId × BasicBlock P))
  | [] => return []
  | header :: headers =>
    match f.blocks[header]? with
    | none => closedConditions f usage headers
    | some block => do
      let closed ← closedCondition block header usage
      let rest ← closedConditions f usage headers
      return if closed then (header, block) :: rest else rest

/-! ## Duplication -/

/-- A condition under duplication. -/
structure Duplicate (P : Type) where
  temps : List MirTemp
  registers : List (Nat × Ty)
  replacements : TempId → Option MirValue
  instructions : List (Instruction P)

def replaced (replacements : TempId → Option MirValue) (v : MirValue) : MirValue :=
  (replacements v.temp).getD v

/-- One instruction over fresh temporaries, with the semantic type of the temporary it replaces. -/
def Duplicate.push (copy : Duplicate P) (i : Instruction P) : Duplicate P :=
  match i.output with
  | none => copy
  | some old =>
    let dst : MirValue := ⟨copy.temps.length, old.ty⟩
    { temps := copy.temps ++ [⟨old.ty⟩]
      registers := (copy.registers.lookup old.temp).elim copy.registers fun ty =>
        SortedMap.insert dst.temp ty copy.registers
      replacements := Function.update copy.replacements old.temp (some dst)
      instructions :=
        copy.instructions ++ [i.rewrite (replaced copy.replacements) (fun _ => dst)] }

def duplicateCode : List (Instruction P) → Duplicate P → PassM (Duplicate P)
  | [], copy => return copy
  | i :: code, copy => do
    Work.charge (1 + i.inputs.length)
    duplicateCode code (copy.push i)

/-- The block with a condition in place of its jump. -/
def BasicBlock.extend (block condition : BasicBlock P) (copy : Duplicate P) : BasicBlock P where
  instructions := block.instructions ++ copy.instructions
  instructionSpans := block.instructionSpans ++ condition.instructionSpans
  instructionScopes := block.instructionScopes ++ condition.instructionScopes
  terminator := condition.terminator.map (·.rewriteInput (replaced copy.replacements))
  terminatorSpan := condition.terminatorSpan
  terminatorScope := condition.terminatorScope

/-- The function with a duplicated condition at the end of a block. -/
def MirFunction.extend (f : MirFunction P) (latch : BlockId) (condition : BasicBlock P)
    (copy : Duplicate P) : MirFunction P :=
  { f with
    temps := copy.temps
    semantic := { f.semantic with registers := copy.registers }
    blocks := f.blocks.modify latch (·.extend condition copy) }

def appendCondition (f : MirFunction P) (latch : BlockId) (condition : BasicBlock P) :
    PassM (MirFunction P) := do
  let copy ← duplicateCode condition.instructions
    { temps := f.temps, registers := f.semantic.registers, replacements := fun _ => none
      instructions := [] }
  return f.extend latch condition copy

def appendConditions (condition : BasicBlock P) : List BlockId → MirFunction P →
    PassM (MirFunction P)
  | [], f => return f
  | latch :: latches, f => do
    let f ← appendCondition f latch condition
    appendConditions condition latches f

/-- The reachable sources of jumps that are not reached around the header. -/
def dominatedLatches (initial bypass : BlockId → Bool) : List BlockId → PassM (List BlockId)
  | [] => return []
  | index :: indices => do
    Work.charge 1
    let latches ← dominatedLatches initial bypass indices
    return if initial index && !bypass index then index :: latches else latches

def rotateConditions (initial : BlockId → Bool) (predecessors : BlockId → List BlockId) :
    List (BlockId × BasicBlock P) → Nat → MirFunction P → PassM (MirFunction P)
  | [], _, f => return f
  | (header, condition) :: conditions, duplicated, f => do
    let bypass ← reachable f (some header)
    let latches ← dominatedLatches initial bypass (predecessors header)
    let growth := condition.instructions.length * latches.length
    if latches.isEmpty || decide (growth > maxDuplicated - duplicated) then
      rotateConditions initial predecessors conditions duplicated f
    else do
      let f ← appendConditions condition latches f
      rotateConditions initial predecessors conditions (duplicated + growth) f

def rotateHeaders (f : MirFunction P) (predecessors : BlockId → List BlockId)
    (headers : List BlockId) : PassM (MirFunction P) :=
  if headers.isEmpty then return f
  else do
    let initial ← reachable f none
    let usage ← countAllUses f.blocks 0 ⟨fun _ => 0, fun _ => []⟩
    let conditions ← closedConditions f usage headers
    rotateConditions initial predecessors conditions 0 f

/-- `rotate`. -/
def rotate (f : MirFunction P) : PassM (MirFunction P) :=
  if f.effects.maySuspend then return f
  else do
    Work.charge (f.blocks.length + f.temps.length)
    let predecessors ← jumpPredecessors f.blocks 0 (fun _ => [])
    rotateHeaders f predecessors (headersOf f predecessors)

end Rotation

end Kagari.Mir
