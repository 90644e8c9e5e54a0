import Kagari.Lib.Checked
import Kagari.Mir.Function

/-!
# The verifier's context and budget

`Context` and `Budget` of `kagari-mir/src/verify.rs` and `verify/analysis.rs`: where an error is
reported, the resource limits, and the checks of one value or one local.
-/

namespace Kagari.Mir

open Lib

inductive ContractError where
  | typeMismatch (label : String) (expected found : ValueType)
  | invalidOperation (reason : String)
deriving DecidableEq

inductive MirVerificationErrorKind where
  | cancelled
  | limit (resource : String) (limit : Nat)
  | invalidBlock (block : BlockId)
  | missingTerminator
  | invalidDebugMetadata
  | invalidParameterLayout
  | invalidTemp (temp : TempId)
  | invalidLocal (localId : LocalId)
  | uninitializedTemp (temp : TempId)
  | uninitializedLocal (localId : LocalId)
  | missingEffects
  | contract (error : ContractError)
deriving DecidableEq

structure MirVerificationError where
  block : Option BlockId
  instruction : Option Nat
  span : Option Span
  kind : MirVerificationErrorKind
deriving DecidableEq

structure Context where
  cancel : Bool
  block : Option BlockId
  instruction : Option Nat
  span : Option Span

/-- The memory and the work that a verification request has used. -/
structure Budget where
  bytes : Nat
  work : Nat

abbrev VerifyM := StateT Budget (Except MirVerificationError)

def u16Max : Nat := 65535

def u32Max : Nat := 4294967295

def maxAnalysisBytes : Nat := 64 * 1024 * 1024

def maxAnalysisWork : Nat := 100000000

namespace Context

variable (context : Context)

section

variable {m : Type → Type} [Monad m] [MonadExceptOf MirVerificationError m]

def error {α : Type} (kind : MirVerificationErrorKind) : m α :=
  throw ⟨context.block, context.instruction, context.span, kind⟩

def checkCancel : m Unit := if context.cancel then context.error .cancelled else pure ()

def limit (count limit : Nat) (resource : String) : m Unit :=
  if count > limit then context.error (.limit resource limit) else pure ()

/-- Stop with an error unless the condition holds. -/
def ensure (condition : Bool) (kind : MirVerificationErrorKind) : m Unit :=
  if condition then pure () else context.error kind

def expect (found expected : ValueType) (label : String) : m Unit :=
  if found = expected then pure ()
  else context.error (.contract (.typeMismatch label expected found))

variable {P : Type} (f : MirFunction P)

/-- The annotation of a value is its temporary's type. -/
def value (v : MirValue) : m Unit :=
  match f.temps[v.temp]? with
  | none => context.error (.invalidTemp v.temp)
  | some temp => context.expect v.ty temp.ty "temporary annotation"

def localType (l : LocalId) : m ValueType :=
  match f.locals[l]? with
  | none => context.error (.invalidLocal l)
  | some found => pure found.ty

end

/-- Use up work of the budget. -/
def work (count : Nat) : VerifyM Unit := do
  context.checkCancel
  let budget ← get
  set { budget with work := budget.work + count }
  context.limit (budget.work + count) maxAnalysisWork "MIR analysis work"

end Context

/-! ## Errors that stop the request, not the function -/

/-- The request was cancelled, or ran into a resource limit. -/
def MirVerificationError.Resource (e : MirVerificationError) : Prop :=
  match e.kind with
  | .cancelled => True
  | .limit _ _ => True
  | _ => False

namespace Context

variable (context : Context)

theorem checkCancel_fails : Fails (context.checkCancel : VerifyM Unit) MirVerificationError.Resource := by
  unfold checkCancel
  split
  · exact .throw trivial
  · exact .pure

theorem limit_fails (count bound : Nat) (resource : String) :
    Fails (context.limit count bound resource : VerifyM Unit) MirVerificationError.Resource := by
  unfold limit
  split
  · exact .throw trivial
  · exact .pure

theorem work_fails (count : Nat) : Fails (context.work count) MirVerificationError.Resource := by
  unfold work
  refine .seq context.checkCancel_fails (fun _ => ?_)
  intro s e hrun
  exact context.limit_fails _ _ _ _ e hrun

theorem ensure_spec (condition : Bool) (kind : MirVerificationErrorKind) :
    Ensures (context.ensure condition kind : VerifyM Unit) (fun _ => condition = true) := by
  unfold ensure
  split
  · rename_i h
    exact .pure h
  · exact .throw

variable {E : MirVerificationError → Prop}

theorem ensure_fails {condition : Bool} (h : condition = true) (kind : MirVerificationErrorKind) :
    Fails (context.ensure condition kind : VerifyM Unit) E := by
  unfold ensure
  rw [if_pos h]
  exact .pure

theorem expect_spec (found expected : ValueType) (label : String) :
    Ensures (context.expect found expected label : VerifyM Unit) (fun _ => found = expected) := by
  unfold expect
  split
  · rename_i h
    exact .pure h
  · exact .throw

theorem expect_fails {found expected : ValueType} (h : found = expected) (label : String) :
    Fails (context.expect found expected label : VerifyM Unit) E := by
  unfold expect
  rw [if_pos h]
  exact .pure

variable {P : Type} (f : MirFunction P)

/-- The annotation is the temporary's type. -/
def Typed (f : MirFunction P) (v : MirValue) : Prop := f.temps[v.temp]? = some ⟨v.ty⟩

theorem value_spec (v : MirValue) : Ensures (context.value f v : VerifyM Unit) (fun _ => Typed f v) := by
  unfold value Typed
  split
  · exact .throw
  · rename_i temp htemp
    refine (context.expect_spec _ _ _).mono (fun _ h => ?_)
    rw [htemp, h]

theorem value_fails {v : MirValue} (h : Typed f v) :
    Fails (context.value f v : VerifyM Unit) E := by
  unfold value
  rw [h]
  exact context.expect_fails rfl _

theorem localType_spec (l : LocalId) :
    Ensures (context.localType f l : VerifyM ValueType) (fun ty => f.locals[l]? = some ⟨ty⟩) := by
  unfold localType
  split
  · exact .throw
  · rename_i found hfnd
    exact .pure hfnd

end Context

end Kagari.Mir
