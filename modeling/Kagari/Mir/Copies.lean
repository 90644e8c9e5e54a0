import Kagari.Mir.Verify.Context

/-!
# Forwarding of copies and locals

`kagari-mir/src/passes.rs` (the work limit) and `passes/copies.rs`: values are forwarded through
constants, moves and locals. Per block, `Scan` holds which temporary each local is known to equal
and which temporary holds each constant; the aliases are those of the whole function, and are
resolved at the end.

Tables over temporaries and blocks, `Vec` in the source, are functions. The alias resolution charges
every step, so the work limit is its fuel.
-/

namespace Kagari.Mir

open Lib

structure PassStatistics where
  constantsFolded : Nat := 0
  branchesSimplified : Nat := 0
  deadOperationsRemoved : Nat := 0
  copiesRemoved : Nat := 0
  constantsReused : Nat := 0

structure Work where
  used : Nat
  limit : Nat
  cancel : Bool

abbrev PassM := StateT Work (Except MirVerificationError)

namespace Work

def error {α : Type} (kind : MirVerificationErrorKind) : PassM α := throw ⟨none, none, none, kind⟩

def charge (count : Nat) : PassM Unit := do
  let work ← get
  if work.cancel then error .cancelled
  else do
    set { work with used := work.used + count }
    if work.used + count > work.limit then error (.limit "MIR optimization work" work.limit)
    else return ()

end Work

/-- Which temporary each local is known to equal. -/
abbrev Facts := List (Option MirValue)

/-- The key of a constant: all but strings are compared by their bits. -/
def ConstantKey.fromConstant : Constant → Option Constant
  | .str _ => none
  | c => some c

structure Scan where
  aliases : TempId → MirValue
  locals : Facts
  constants : List ((Constant × Option Ty) × MirValue)
  statistics : PassStatistics

section Copies

variable {P : Type} (f : MirFunction P)

/-- The temporary itself, with its type. -/
def MirFunction.ownValue (t : TempId) : MirValue := ⟨t, (f.temps[t]?).elim .unit (·.ty)⟩

def MirFunction.same (a b : MirValue) : Bool :=
  a.ty == b.ty && f.registerType a.temp == f.registerType b.temp

/-- How often each temporary is defined, added to a table. -/
def countDefinitions : List (Instruction P) → (TempId → Nat) → PassM (TempId → Nat)
  | [], definitions => return definitions
  | i :: code, definitions => do
    Work.charge 1
    countDefinitions code (i.output.elim definitions fun dst =>
      Function.update definitions dst.temp (definitions dst.temp + 1))

def pushPredecessors (index : BlockId) : List BlockId → (BlockId → List BlockId) →
    PassM (BlockId → List BlockId)
  | [], predecessors => return predecessors
  | successor :: successors, predecessors => do
    Work.charge 1
    pushPredecessors index successors
      (Function.update predecessors successor (predecessors successor ++ [index]))

def allPredecessors : List (BasicBlock P) → BlockId → (BlockId → List BlockId) →
    PassM (BlockId → List BlockId)
  | [], _, predecessors => return predecessors
  | block :: blocks, index, predecessors => do
    let predecessors ← pushPredecessors index block.successors predecessors
    allPredecessors blocks (index + 1) predecessors

/-- The fact of one local, if every incoming edge proves the same. -/
def meetLocal (candidate : Option MirValue) (l : LocalId) : List Facts → PassM (Option MirValue)
  | [] => return candidate
  | facts :: rest => do
    Work.charge 1
    if facts.getD l none = candidate then meetLocal candidate l rest else return none

def meetLocals (first : Facts) (incoming : List Facts) : List LocalId → PassM Facts
  | [] => return []
  | l :: locals => do
    let fact ← meetLocal (first.getD l none) l incoming
    let facts ← meetLocals first incoming locals
    return fact :: facts

/-- The facts when a block starts: those of its predecessors, when all of them are known. -/
def entryFacts (predecessors : BlockId → List BlockId) (outgoing : BlockId → Option Facts)
    (index : BlockId) : PassM Facts :=
  if index = f.entry then return List.replicate f.locals.length none
  else
    match (predecessors index).mapM outgoing with
    | none => return List.replicate f.locals.length none
    | some [] => return List.replicate f.locals.length none
    | some (first :: rest) =>
      meetLocals first (first :: rest) (List.range f.locals.length)

variable (definitions : TempId → Nat)

/-- What is learned from an instruction whose inputs are already rewritten, and whether it is
removed. -/
def forward (scan : Scan) (i : Instruction P) : Scan × Bool :=
  match i with
  | .loadConst dst c =>
    if definitions dst.temp = 1 then
      match ConstantKey.fromConstant c with
      | none => (scan, false)
      | some key =>
        match scan.constants.lookup (key, f.registerType dst.temp) with
        | some previous =>
          ({ scan with
              aliases := Function.update scan.aliases dst.temp previous
              statistics :=
                { scan.statistics with
                  constantsReused := scan.statistics.constantsReused + 1 } },
            previous != dst)
        | none =>
          ({ scan with constants := ((key, f.registerType dst.temp), dst) :: scan.constants },
            scan.aliases dst.temp != dst)
    else (scan, false)
  | .loadLocal dst l =>
    if definitions dst.temp = 1 then
      match scan.locals.getD l none with
      | some previous =>
        if f.same dst previous then
          ({ scan with
              aliases := Function.update scan.aliases dst.temp previous
              locals := scan.locals.set l (some previous)
              statistics :=
                { scan.statistics with copiesRemoved := scan.statistics.copiesRemoved + 1 } },
            true)
        else ({ scan with locals := scan.locals.set l (some (scan.aliases dst.temp)) }, false)
      | none => ({ scan with locals := scan.locals.set l (some (scan.aliases dst.temp)) }, false)
    else (scan, false)
  | .storeLocal l src =>
    ({ scan with
        locals := scan.locals.set l (if definitions src.temp = 1 then some src else none) }, false)
  | .move dst src =>
    if definitions dst.temp = 1 && definitions src.temp = 1 && f.same dst src then
      ({ scan with
          aliases := Function.update scan.aliases dst.temp src
          statistics :=
            { scan.statistics with copiesRemoved := scan.statistics.copiesRemoved + 1 } },
        true)
    else (scan, false)
  | _ => (scan, false)

/-- A call kills the facts about locals. -/
def killFacts (calls : Bool) (scan : Scan) : Scan :=
  if calls then { scan with locals := List.replicate f.locals.length none } else scan

def aliased (aliases : TempId → MirValue) (v : MirValue) : MirValue := aliases v.temp

/-- One row: what is known after it, and the rewritten row if it is kept. -/
def scanRow (scan : Scan) (row : Row P) : Scan × Option (Row P) :=
  let i := row.instruction.rewriteInputs (aliased scan.aliases)
  let (next, removed) := forward f definitions scan i
  (killFacts f i.effects.calls next, if removed then none else some { row with instruction := i })

/-- Killing the facts is charged as well. -/
def chargeCall (i : Instruction P) : PassM Unit :=
  if i.effects.calls then Work.charge f.locals.length else return ()

def scanRows : List (Row P) → Scan → PassM (List (Row P) × Scan)
  | [], scan => return ([], scan)
  | row :: rows, scan => do
    Work.charge (1 + row.instruction.inputs.length)
    chargeCall f row.instruction
    let rest ← scanRows rows (scanRow f definitions scan row).1
    return ((scanRow f definitions scan row).2.toList ++ rest.1, rest.2)

/-- The function's blocks under way, with the facts that hold at the end of each block done. -/
structure Forwarding (P : Type) where
  aliases : TempId → MirValue
  outgoing : BlockId → Option Facts
  blocks : List (BasicBlock P)
  statistics : PassStatistics

def scanBlocks (predecessors : BlockId → List BlockId) : List BlockId → Forwarding P →
    PassM (Forwarding P)
  | [], state => return state
  | index :: order, state => do
    Work.charge f.locals.length
    let locals ← entryFacts f predecessors state.outgoing index
    match state.blocks[index]? with
    | none => scanBlocks predecessors order state
    | some block => do
      let (rows, scan) ← scanRows f definitions block.rows
        { aliases := state.aliases, locals, constants := [], statistics := state.statistics }
      scanBlocks predecessors order
        { aliases := scan.aliases
          outgoing := Function.update state.outgoing index (some scan.locals)
          blocks := state.blocks.set index (block.withRows rows)
          statistics := scan.statistics }

/-! ## Aliases of aliases -/

/-- Follow the aliases from a value to one that is its own alias. -/
def resolveLoop (aliases : TempId → MirValue) : Nat → MirValue → PassM MirValue
  | fuel, value =>
    if (aliases value.temp).temp = value.temp then return value
    else
      match fuel with
      | 0 => do
        let work ← get
        Work.error (.limit "MIR optimization work" work.limit)
      | fuel + 1 => do
        Work.charge 1
        resolveLoop aliases fuel (aliases value.temp)

def resolveAliases (fuel : Nat) : List TempId → (TempId → MirValue) → PassM (TempId → MirValue)
  | [], aliases => return aliases
  | index :: indices, aliases => do
    let value ← resolveLoop aliases fuel (aliases index)
    resolveAliases fuel indices (Function.update aliases index value)

def rewriteRows (aliases : TempId → MirValue) : List (Row P) → PassM (List (Row P))
  | [] => return []
  | row :: rows => do
    Work.charge (1 + row.instruction.inputs.length)
    let rows ← rewriteRows aliases rows
    return { row with instruction := row.instruction.rewriteInputs (aliased aliases) } :: rows

def rewriteBlocks (aliases : TempId → MirValue) : List (BasicBlock P) → PassM (List (BasicBlock P))
  | [] => return []
  | block :: blocks => do
    let rows ← rewriteRows aliases block.rows
    Work.charge 1
    let blocks ← rewriteBlocks aliases blocks
    return { block.withRows rows with
      terminator := block.terminator.map (·.rewriteInput (aliased aliases)) } :: blocks

/-- `simplify_function`. -/
def simplifyFunction (statistics : PassStatistics) : PassM (MirFunction P × PassStatistics) := do
  Work.charge f.temps.length
  let definitions ← countDefinitions (f.blocks.flatMap (·.instructions)) (fun _ => 0)
  let predecessors ← allPredecessors f.blocks 0 (fun _ => [])
  let state ← scanBlocks f definitions predecessors f.emissionOrder
    { aliases := f.ownValue, outgoing := fun _ => none, blocks := f.blocks, statistics }
  let work ← get
  let aliases ← resolveAliases (work.limit + 1) (List.range f.temps.length) state.aliases
  let blocks ← rewriteBlocks aliases state.blocks
  return ({ f with blocks }, state.statistics)

end Copies

/-- `simplify`: the functions of a module, one after another. -/
def simplify {P : Type} : List (MirFunction P) → PassStatistics →
    PassM (List (MirFunction P) × PassStatistics)
  | [], statistics => return ([], statistics)
  | f :: functions, statistics => do
    let first ← simplifyFunction f statistics
    let rest ← simplify functions first.2
    return (first.1 :: rest.1, rest.2)

end Kagari.Mir
