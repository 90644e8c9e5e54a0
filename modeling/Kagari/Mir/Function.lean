import Kagari.Mir.Instruction

/-!
# MIR functions

The records of `kagari-mir/src/function.rs` and `debug.rs`. Names, the instance identity and the
source text's positions are left out: no function here reads them.

A block's instructions, spans and scopes are three columns, as in the source; a row is one
instruction with its span and scope. `Path` is a path through the rows from the entry block, with
the points it has run.
-/

namespace Kagari.Mir

open List

structure MirParameter where
  ty : ValueType
  localId : LocalId

structure MirLocal where
  ty : ValueType

structure MirTemp where
  ty : ValueType
deriving DecidableEq

/-- Ordered maps from indices to semantic types. -/
structure SemanticSlots (P : Type) where
  generic : Option P
  params : List (Nat × Ty)
  result : Option Ty
  locals : List (Nat × Ty)
  registers : List (Nat × Ty)

structure MirLexicalScope where
  parent : Option Nat
  localId : Option LocalId

structure MirLocalDebugInfo where
  localId : LocalId
  span : Span
  ty : ValueType
  isParameter : Bool

structure MirFunctionDebugMetadata where
  sourceSpan : Span
  locals : List MirLocalDebugInfo
  capturedBindings : List Span
  lexicalScopes : List MirLexicalScope

structure BasicBlock (P : Type) where
  instructions : List (Instruction P)
  instructionSpans : List Span
  instructionScopes : List Nat
  terminator : Option Terminator
  terminatorSpan : Option Span
  terminatorScope : Option Nat

structure MirFunction (P : Type) where
  semantic : SemanticSlots P
  params : List MirParameter
  returnType : ValueType
  locals : List MirLocal
  temps : List MirTemp
  blocks : List (BasicBlock P)
  entry : BlockId
  effects : EffectSet
  debug : MirFunctionDebugMetadata

/-- One instruction with its span and its lexical scope. -/
structure Row (P : Type) where
  instruction : Instruction P
  span : Span
  scope : Nat

namespace BasicBlock

variable {P : Type}

def rows (block : BasicBlock P) : List (Row P) :=
  (block.instructions.zip (block.instructionSpans.zip block.instructionScopes)).map
    fun (instruction, span, scope) => ⟨instruction, span, scope⟩

/-- The three columns of a list of rows, in place of the block's. -/
def withRows (block : BasicBlock P) (rows : List (Row P)) : BasicBlock P :=
  { block with
    instructions := rows.map (·.instruction)
    instructionSpans := rows.map (·.span)
    instructionScopes := rows.map (·.scope) }

def successors (block : BasicBlock P) : List BlockId := block.terminator.elim [] (·.successors)

@[simp] theorem rows_withRows (block : BasicBlock P) (rows : List (Row P)) :
    (block.withRows rows).rows = rows := by
  unfold withRows BasicBlock.rows
  induction rows with
  | nil => rfl
  | cons row rows ih =>
    simp only [map_cons, zip_cons_cons]
    rw [ih]

/-- The three columns have the same length. -/
def Aligned (block : BasicBlock P) : Prop :=
  block.instructions.length = block.instructionSpans.length ∧
    block.instructions.length = block.instructionScopes.length

variable {block : BasicBlock P}

theorem instructions_eq (h : block.Aligned) :
    block.instructions = block.rows.map (·.instruction) := by
  obtain ⟨hspn, hscps⟩ := h
  unfold rows
  rw [map_map]
  symm
  show List.map Prod.fst _ = _
  apply map_fst_zip
  rw [length_zip]
  omega

theorem spans_eq (h : block.Aligned) :
    block.instructionSpans = block.rows.map (·.span) := by
  obtain ⟨hspn, hscps⟩ := h
  unfold rows
  rw [map_map]
  symm
  show List.map (Prod.fst ∘ Prod.snd) _ = _
  rw [← map_map, map_snd_zip, map_fst_zip]
  · omega
  · rw [length_zip]
    omega

theorem scopes_eq (h : block.Aligned) :
    block.instructionScopes = block.rows.map (·.scope) := by
  obtain ⟨hspn, hscps⟩ := h
  unfold rows
  rw [map_map]
  symm
  show List.map (Prod.snd ∘ Prod.snd) _ = _
  rw [← map_map, map_snd_zip, map_snd_zip]
  · omega
  · rw [length_zip]
    omega

end BasicBlock

namespace MirFunction

variable {P : Type} (f : MirFunction P)

/-- The rows of a block; none for an index that is not a block. -/
def rowsAt (b : BlockId) : List (Row P) := (f.blocks[b]?).elim [] (·.rows)

def terminatorAt (b : BlockId) : Option Terminator := (f.blocks[b]?).bind (·.terminator)

def successorsAt (b : BlockId) : List BlockId := (f.terminatorAt b).elim [] (·.successors)

/-- The semantic type of a temporary. -/
def registerType (temp : TempId) : Option Ty := f.semantic.registers.lookup temp

/-- The entry block first, then the blocks by index. -/
def emissionOrder : List BlockId :=
  f.entry :: (List.range f.blocks.length).filter (· != f.entry)

end MirFunction

/-! ## Paths -/

section Paths

variable {P : Type} (f : MirFunction P)

/-- A row of a function, by its block and its index there. -/
abbrev Point := BlockId × Nat

/-- A path from the entry to row `i` of block `b` (its terminator, when `i` is past the rows), with
the points it has run. -/
inductive Path : BlockId → Nat → List Point → Prop
  | entry : Path f.entry 0 []
  | next {b i : Nat} {trace : List Point} : Path b i trace → i < (f.rowsAt b).length →
      Path b (i + 1) (trace ++ [(b, i)])
  | jump {b target : Nat} {trace : List Point} : Path b (f.rowsAt b).length trace →
      target ∈ f.successorsAt b → Path target 0 trace

/-- The row at a point writes the temporary. -/
def Writes (t : TempId) (p : Point) : Prop :=
  ∃ row v, (f.rowsAt p.1)[p.2]? = some row ∧ row.instruction.output = some v ∧ v.temp = t

/-- Every path to the point has written the temporary. -/
def Written (t : TempId) (b : BlockId) (i : Nat) : Prop :=
  ∀ trace, Path f b i trace → ∃ p ∈ trace, Writes f t p

/-- Some path gets to the point. -/
def Reached (b : BlockId) (i : Nat) : Prop := ∃ trace, Path f b i trace

end Paths

end Kagari.Mir
