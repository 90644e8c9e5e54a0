import Kagari.Types.Ty

/-!
# Bounded shapes

The node and depth budget that type predicates and the flat encoding share
(`kagari-types/src/ty/shape.rs`). `visited` is the field of `ShapeBudget`: every function takes it
and returns the one it leaves.
-/

namespace Kagari

inductive TypeTransformError where
  | cancelled | limitExceeded | invalidContract
deriving DecidableEq

def maxTypeDepth : Nat := 64

def maxTypeNodes : Nat := 4096

/-- A `CancellationToken` that is set for the whole call, or not at all. -/
abbrev CancellationToken := Bool

def checkCancel (cancel : CancellationToken) : Except TypeTransformError Unit :=
  if cancel then .error .cancelled else .ok ()

variable (cancel : CancellationToken)

namespace ShapeBudget

def nominalChildren (nominal : NominalTy) : Nat :=
  nominal.arguments.length + nominal.associatedTypes.length

/-- The children a type announces. Only traits and projections may bind associated types. -/
def childCount : Ty → Except TypeTransformError Nat
  | .host _ | .selfType _ | .parameter _ _ | .builtin _ => .ok 0
  | .reference _ _ | .range _ _ | .iter _ | .array _ | .set _ _ => .ok 1
  | .map _ _ _ => .ok 2
  | .tuple elements => .ok elements.length
  | .function params _ => .ok (params.length + 1)
  | .struct nominal | .nativeObject nominal | .enum nominal =>
    if nominal.associatedTypes.isEmpty then .ok nominal.arguments.length
    else .error .invalidContract
  | .trait nominal => .ok (nominalChildren nominal)
  | .projection arguments _ interface _ =>
    .ok (nominalChildren interface + arguments.length + 1)

def enterChildren (visited children depth : Nat) : Except TypeTransformError Nat :=
  if depth > maxTypeDepth ∨ visited ≥ maxTypeNodes then .error .limitExceeded
  else if children > maxTypeNodes - (visited + 1) then .error .limitExceeded
  else .ok (visited + 1)

def enter (visited : Nat) (ty : Ty) (depth : Nat) : Except TypeTransformError Nat :=
  if depth > maxTypeDepth ∨ visited ≥ maxTypeNodes then .error .limitExceeded
  else do
    let children ← childCount ty
    enterChildren visited children depth

/-- What a successful `enter` has checked. -/
theorem enter_ok {visited depth visited' : Nat} {ty : Ty} :
    enter visited ty depth = .ok visited' ↔
      depth ≤ maxTypeDepth ∧ visited' = visited + 1 ∧
        ∃ children, childCount ty = .ok children ∧ visited + 1 + children ≤ maxTypeNodes := by
  unfold enter
  split
  · rename_i hlim
    simp only [reduceCtorEq, false_iff]
    rintro ⟨hdep, -, children, -, hfit⟩
    omega
  · rename_i hlim
    rw [Lib.bind_ok]
    constructor
    · rintro ⟨children, hcnt, hen⟩
      unfold enterChildren at hen
      rw [if_neg hlim] at hen
      split at hen
      · cases hen
      · rename_i hfit
        simp only [Except.ok.injEq] at hen
        exact ⟨by omega, hen.symm, children, hcnt, by omega⟩
    · rintro ⟨hdep, rfl, children, hcnt, hfit⟩
      refine ⟨children, hcnt, ?_⟩
      unfold enterChildren
      rw [if_neg hlim, if_neg (by omega)]

mutual

/-- Visit a type and everything below it, as the source recurses. -/
def visit (cancel : CancellationToken) (visited : Nat) (ty : Ty) (depth : Nat) :
    Except TypeTransformError Nat := do
  checkCancel cancel
  let visited ← enter visited ty depth
  match ty with
  | .host _ => return visited
  | .selfType _ => return visited
  | .parameter _ _ => return visited
  | .builtin _ => return visited
  | .reference target _ => visit cancel visited target (depth + 1)
  | .range target _ => visit cancel visited target (depth + 1)
  | .iter target => visit cancel visited target (depth + 1)
  | .array target => visit cancel visited target (depth + 1)
  | .set target _ => visit cancel visited target (depth + 1)
  | .map key value _ => do
    let visited ← visit cancel visited key (depth + 1)
    visit cancel visited value (depth + 1)
  | .tuple elements => visitAll cancel visited elements (depth + 1)
  | .function params result => do
    let visited ← visitAll cancel visited params (depth + 1)
    visit cancel visited result (depth + 1)
  | .struct nominal => visitNominal cancel visited nominal (depth + 1)
  | .nativeObject nominal => visitNominal cancel visited nominal (depth + 1)
  | .enum nominal => visitNominal cancel visited nominal (depth + 1)
  | .trait nominal => visitNominal cancel visited nominal (depth + 1)
  | .projection arguments receiver interface _ => do
    let visited ← visit cancel visited receiver (depth + 1)
    let visited ← visitNominal cancel visited interface (depth + 1)
    visitAll cancel visited arguments (depth + 1)
termination_by structural ty

def visitAll (cancel : CancellationToken) (visited : Nat) (types : List Ty) (depth : Nat) :
    Except TypeTransformError Nat :=
  match types with
  | [] => .ok visited
  | ty :: types => do
    let visited ← visit cancel visited ty depth
    visitAll cancel visited types depth
termination_by structural types

/-- `nominal_children`: the arguments, then the bound types in key order. -/
def visitNominal (cancel : CancellationToken) (visited : Nat) (nominal : NominalTy) (depth : Nat) :
    Except TypeTransformError Nat :=
  match nominal with
  | ⟨_, arguments, associatedTypes⟩ => do
    let visited ← visitAll cancel visited arguments depth
    visitBindings cancel visited associatedTypes depth
termination_by structural nominal

def visitBindings (cancel : CancellationToken) (visited : Nat)
    (bindings : List (DefinitionId × Ty)) (depth : Nat) : Except TypeTransformError Nat :=
  match bindings with
  | [] => .ok visited
  | binding :: bindings => do
    let visited ← visitBinding cancel visited binding depth
    visitBindings cancel visited bindings depth
termination_by structural bindings

def visitBinding (cancel : CancellationToken) (visited : Nat) (binding : DefinitionId × Ty)
    (depth : Nat) : Except TypeTransformError Nat :=
  match binding with
  | (_, ty) => visit cancel visited ty depth
termination_by structural binding

end

theorem visitBindings_eq (visited : Nat)
    (bindings : List (DefinitionId × Ty)) (depth : Nat) :
    visitBindings cancel visited bindings depth =
      visitAll cancel visited (bindings.map Prod.snd) depth := by
  induction bindings generalizing visited with
  | nil => rfl
  | cons b bs ih =>
    obtain ⟨id, ty⟩ := b
    simp only [visitBindings, visitBinding, List.map_cons, visitAll, ih]

theorem visitAll_append (visited depth : Nat) (ts us : List Ty) :
    visitAll cancel visited (ts ++ us) depth =
      visitAll cancel visited ts depth >>= fun v => visitAll cancel v us depth := by
  induction ts generalizing visited with
  | nil => rfl
  | cons t ts ih =>
    simp only [List.cons_append, visitAll, ih, bind_assoc]

end ShapeBudget

/-- `shape::validate`. -/
def validate (ty : Ty) (cancel : CancellationToken) : Except TypeTransformError Unit := do
  let _ ← ShapeBudget.visit cancel 0 ty 1

/-- A nominal as a complete trait-type tree. -/
def validateNominal (nominal : NominalTy) (cancel : CancellationToken) :
    Except TypeTransformError Unit := do
  checkCancel cancel
  let visited ← ShapeBudget.enterChildren 0 (ShapeBudget.nominalChildren nominal) 1
  let _ ← ShapeBudget.visitNominal cancel visited nominal 2

/-- `Ty::within_wire_limits`: no token, so nothing cancels the visit. -/
def Ty.withinWireLimits (ty : Ty) : Bool := (validate ty false).toBool

end Kagari
