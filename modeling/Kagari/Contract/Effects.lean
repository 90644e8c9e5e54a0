import Kagari.Contract.Operations

/-!
# Effects

`kagari-contract/src/effects.rs`: the conservative effect bits of operations.
-/

namespace Kagari

structure EffectSet where
  readsLocal : Bool := false
  writesLocal : Bool := false
  readsModule : Bool := false
  writesModule : Bool := false
  readsAggregate : Bool := false
  writesAggregate : Bool := false
  readsPath : Bool := false
  writesPath : Bool := false
  allocates : Bool := false
  calls : Bool := false
  touchesRuntime : Bool := false
  mayTrap : Bool := false
  /-- Resume bodies require an owned driver. -/
  maySuspend : Bool := false
deriving DecidableEq

inductive RuntimePrimitive where
  | valuePartialCmp | valueCmp | valueEq | valueHash | valueDebug | valueDisplay
  | stringPartsJoin | assert
deriving DecidableEq

namespace EffectSet

def union (a b : EffectSet) : EffectSet where
  readsLocal := a.readsLocal || b.readsLocal
  writesLocal := a.writesLocal || b.writesLocal
  readsModule := a.readsModule || b.readsModule
  writesModule := a.writesModule || b.writesModule
  readsAggregate := a.readsAggregate || b.readsAggregate
  writesAggregate := a.writesAggregate || b.writesAggregate
  readsPath := a.readsPath || b.readsPath
  writesPath := a.writesPath || b.writesPath
  allocates := a.allocates || b.allocates
  calls := a.calls || b.calls
  touchesRuntime := a.touchesRuntime || b.touchesRuntime
  mayTrap := a.mayTrap || b.mayTrap
  maySuspend := a.maySuspend || b.maySuspend

/-- The first set has every effect of the second. -/
def Covers (a b : EffectSet) : Prop := a.union b = a

theorem covers_empty (a : EffectSet) : a.Covers {} := by
  simp [Covers, union]

theorem covers_union {a b c : EffectSet} : a.Covers (b.union c) ↔ a.Covers b ∧ a.Covers c := by
  cases a
  simp only [Covers, union, mk.injEq, Bool.or_eq_left_iff_imp, Bool.or_eq_true, or_imp]
  tauto

def localRead : EffectSet := { readsLocal := true }

def localWrite : EffectSet := { writesLocal := true }

def aggregateRead : EffectSet := { readsAggregate := true, mayTrap := true }

def aggregateWrite : EffectSet := { writesAggregate := true, mayTrap := true }

def pathRead : EffectSet := { readsPath := true, touchesRuntime := true, mayTrap := true }

def pathWrite : EffectSet := { writesPath := true, touchesRuntime := true, mayTrap := true }

def allocation : EffectSet := { allocates := true, touchesRuntime := true, mayTrap := true }

def call : EffectSet := { calls := true, mayTrap := true }

def runtimeCall : EffectSet := { calls := true, touchesRuntime := true, mayTrap := true }

def nativeCall : EffectSet :=
  { runtimeCall with
    readsModule := true, writesModule := true, readsPath := true, writesPath := true
    readsAggregate := true, writesAggregate := true, allocates := true }

/-- First access may execute arbitrary synchronous initializer code. -/
def moduleRead : EffectSet := nativeCall

def moduleWrite : EffectSet := nativeCall

end EffectSet

def runtimePrimitiveEffects (primitive : RuntimePrimitive) : EffectSet :=
  let read := EffectSet.runtimeCall.union EffectSet.aggregateRead
  match primitive with
  | .valueEq | .valueHash | .assert => read
  | .valuePartialCmp | .valueCmp | .valueDebug | .valueDisplay | .stringPartsJoin =>
    read.union EffectSet.allocation

end Kagari
