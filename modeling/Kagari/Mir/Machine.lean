import Kagari.Lib.Machine
import Kagari.Mir.Function

/-!
# Execution of MIR functions

A function runs as a machine over temporaries, locals and the world outside (heap, modules, host).
Constants, moves and reads of locals only change temporaries and are not observed. Stores to locals
are observed: the debugger sees them. Every other instruction is performed by the world
(`External`): it sees the instruction's shape and the values it reads, and answers with a value or
with a trap. An instruction that calls may also change locals.
-/

namespace Kagari.Mir

open Lib

/-- What an instruction does to temporaries and locals. -/
inductive Action where
  | constant (dst : MirValue) (constant : Constant)
  | readLocal (dst : MirValue) (localId : LocalId)
  | copy (dst src : MirValue)
  | writeLocal (localId : LocalId) (src : MirValue)
  | operation

namespace Action

def rewrite (r d : MirValue → MirValue) : Action → Action
  | .constant dst c => .constant (d dst) c
  | .readLocal dst l => .readLocal (d dst) l
  | .copy dst src => .copy (d dst) (r src)
  | .writeLocal l src => .writeLocal l (r src)
  | .operation => .operation

end Action

variable {dst : MirValue} {l : LocalId}

namespace Instruction

variable {P : Type}

def action : Instruction P → Action
  | .loadConst dst c => .constant dst c
  | .loadLocal dst l => .readLocal dst l
  | .move dst src => .copy dst src
  | .storeLocal l src => .writeLocal l src
  | _ => .operation

attribute [local simp] action

@[simp] theorem action_rewrite (r d : MirValue → MirValue) (i : Instruction P) :
    (i.rewrite r d).action = i.action.rewrite r d := by
  cases i <;> rfl

variable {i : Instruction P}

theorem action_constant {c : Constant} :
    i.action = .constant dst c ↔ i = .loadConst dst c := by
  cases i <;> simp

theorem action_readLocal :
    i.action = .readLocal dst l ↔ i = .loadLocal dst l := by
  cases i <;> simp

theorem action_copy {dst src : MirValue} :
    i.action = .copy dst src ↔ i = .move dst src := by
  cases i <;> simp

theorem action_writeLocal {src : MirValue} :
    i.action = .writeLocal l src ↔ i = .storeLocal l src := by
  cases i <;> simp

end Instruction

/-- What the world outside the function answers. -/
structure External (P V W : Type) where
  constant : Constant → V
  truth : V → Bool
  /-- The value, the locals and the world after an operation; none when it traps. -/
  perform : Instruction P → List V → (LocalId → V) → W → Option (V × (LocalId → V) × W)

structure State (V W : Type) where
  block : BlockId
  index : Nat
  env : TempId → V
  locals : LocalId → V
  world : W

inductive Event (P V : Type) where
  | store (span : Span) (localId : LocalId) (value : V)
  | operation (span : Span) (shape : Instruction P) (inputs : List V)

inductive Outcome (P V W : Type) where
  | returned (value : Option V) (world : W)
  | trapped (span : Span) (shape : Instruction P) (inputs : List V)
  | unreachable (span : Option Span)
  | malformed

section Execution

variable {P V W : Type}

namespace State

/-- Set a temporary and go to the next row. -/
def assign (s : State V W) (dst : MirValue) (value : V) : State V W :=
  { s with env := Function.update s.env dst.temp value, index := s.index + 1 }

def store (s : State V W) (l : LocalId) (value : V) : State V W :=
  { s with locals := Function.update s.locals l value, index := s.index + 1 }

def goto (s : State V W) (target : BlockId) : State V W :=
  { s with block := target, index := 0 }

/-- After an operation that the world has performed. -/
def performed (s : State V W) (output : Option MirValue) (calls : Bool)
    (result : V × (LocalId → V) × W) : State V W :=
  { s with
    env := output.elim s.env fun dst => Function.update s.env dst.temp result.1
    locals := if calls then result.2.1 else s.locals
    world := result.2.2
    index := s.index + 1 }

/-- The values of an instruction's inputs. -/
def read (s : State V W) (inputs : List MirValue) : List V := inputs.map (fun v => s.env v.temp)

end State

variable (x : External P V W)

/-- Execute one row. -/
def stepRow (row : Row P) (s : State V W) : Step (State V W) (Event P V) (Outcome P V W) :=
  match row.instruction.action with
  | .constant dst c => .next (s.assign dst (x.constant c)) []
  | .readLocal dst l => .next (s.assign dst (s.locals l)) []
  | .copy dst src => .next (s.assign dst (s.env src.temp)) []
  | .writeLocal l src =>
    .next (s.store l (s.env src.temp)) [.store row.span l (s.env src.temp)]
  | .operation =>
    let i := row.instruction
    match x.perform i.shape (s.read i.inputs) s.locals s.world with
    | none => .halt (.trapped row.span i.shape (s.read i.inputs))
    | some result =>
      .next (s.performed i.output i.effects.calls result)
        [.operation row.span i.shape (s.read i.inputs)]

/-- Leave a block. -/
def stepTerminator (terminator : Option Terminator) (span : Option Span) (s : State V W) :
    Step (State V W) (Event P V) (Outcome P V W) :=
  match terminator with
  | some (.ret value) => .halt (.returned (value.map (fun v => s.env v.temp)) s.world)
  | some (.jump target) => .next (s.goto target) []
  | some (.branch cond thenBlock elseBlock) =>
    .next (s.goto (if x.truth (s.env cond.temp) then thenBlock else elseBlock)) []
  | some .unreachable => .halt (.unreachable span)
  | none => .halt .malformed

/-- The span of a block's terminator. -/
def MirFunction.terminatorSpanAt (f : MirFunction P) (b : BlockId) : Option Span :=
  (f.blocks[b]?).bind (·.terminatorSpan)

/-- Execute one row or one terminator. -/
def step (f : MirFunction P) (s : State V W) : Step (State V W) (Event P V) (Outcome P V W) :=
  match (f.rowsAt s.block)[s.index]? with
  | some row => stepRow x row s
  | none => stepTerminator x (f.terminatorAt s.block) (f.terminatorSpanAt s.block) s

/-- The start of a call: the arguments are in the first locals. -/
def start (f : MirFunction P) (env : TempId → V) (locals : LocalId → V) (world : W) : State V W :=
  { block := f.entry, index := 0, env, locals, world }

/-- For every answer of the world, every argument and every initial world, the two functions
behave the same. -/
def SameExecution (f f' : MirFunction P) : Prop :=
  ∀ (V W : Type) (x : External P V W) (env : TempId → V) (locals : LocalId → V) (world : W),
    Machine.SameBehaviour (step x f) (start f env locals world)
      (step x f') (start f' env locals world)

/-! ## What a step changes -/

section Steps

variable {x} {row : Row P} {s s' : State V W} {events : List (Event P V)}

/-- The temporaries and locals that a row does not write stay as they are. -/
structure Framed (row : Row P) (s s' : State V W) : Prop where
  block : s'.block = s.block
  index : s'.index = s.index + 1
  env : ∀ t, (∀ dst ∈ row.instruction.output, dst.temp ≠ t) → s'.env t = s.env t
  locals : ∀ l, row.instruction.effects.calls = false →
    (∀ src, row.instruction ≠ .storeLocal l src) → s'.locals l = s.locals l

theorem State.assign_env_ne {s : State V W} {value : V} {t : TempId}
    (h : dst.temp ≠ t) : (s.assign dst value).env t = s.env t :=
  Function.update_of_ne (Ne.symm h) _ _

theorem stepRow_framed (h : stepRow x row s = .next s' events) : Framed row s s' := by
  unfold stepRow at h
  split at h
  · rename_i dst c hact
    cases h
    rw [Instruction.action_constant] at hact
    exact ⟨rfl, rfl, fun t ht => State.assign_env_ne (ht dst (by simp [hact, Instruction.output])),
      fun _ _ _ => rfl⟩
  · rename_i dst l hact
    cases h
    rw [Instruction.action_readLocal] at hact
    exact ⟨rfl, rfl, fun t ht => State.assign_env_ne (ht dst (by simp [hact, Instruction.output])),
      fun _ _ _ => rfl⟩
  · rename_i dst src hact
    cases h
    rw [Instruction.action_copy] at hact
    exact ⟨rfl, rfl, fun t ht => State.assign_env_ne (ht dst (by simp [hact, Instruction.output])),
      fun _ _ _ => rfl⟩
  · rename_i l src hact
    cases h
    rw [Instruction.action_writeLocal] at hact
    refine ⟨rfl, rfl, fun _ _ => rfl, fun l' _ hl => Function.update_of_ne ?_ _ _⟩
    rintro rfl
    exact hl src hact
  · dsimp only at h
    split at h
    · cases h
    · cases h
      refine ⟨rfl, rfl, fun t ht => ?_, fun l hcalls _ => ?_⟩
      · unfold State.performed
        cases hout : row.instruction.output with
        | none => rfl
        | some dst => exact Function.update_of_ne (Ne.symm (ht dst (by simp [hout]))) _ _
      · simp [State.performed, hcalls]

/-- Two rows that differ in their temporaries do the same, when they read the same values. -/
structure Lockstep (row : Row P) (d : MirValue → MirValue) (s s' t t' : State V W) : Prop where
  source : Framed row s s'
  block : t'.block = t.block
  index : t'.index = t.index + 1
  locals : t'.locals = s'.locals
  world : t'.world = s'.world
  written : ∀ dst ∈ row.instruction.output, t'.env (d dst).temp = s'.env dst.temp
  env : ∀ u, (∀ dst ∈ row.instruction.output, (d dst).temp ≠ u) → t'.env u = t.env u

variable {r d : MirValue → MirValue} {t : State V W}

/-- A row and its copy over other temporaries, in states that agree. -/
theorem stepRow_lockstep {row' : Row P} (hspan : row'.span = row.span)
    (hrow : row'.instruction = row.instruction.rewrite r d)
    (hr : ∀ v ∈ row.instruction.inputs, (r v).ty = v.ty ∧ t.env (r v).temp = s.env v.temp)
    (hd : ∀ v ∈ row.instruction.output, (d v).ty = v.ty)
    (hlocs : t.locals = s.locals) (hwld : t.world = s.world) :
    (∃ outcome, stepRow x row s = .halt outcome ∧ stepRow x row' t = .halt outcome) ∨
    ∃ s' t' events, stepRow x row s = .next s' events ∧ stepRow x row' t = .next t' events ∧
      Lockstep row d s s' t t' := by
  have hinp : ∀ src, src ∈ row.instruction.inputs → t.env (r src).temp = s.env src.temp :=
    fun src hsrc => (hr src hsrc).2
  have hassign : ∀ (dst : MirValue) (value : V), row.instruction.output = some dst →
      stepRow x row s = .next (s.assign dst value) [] →
      stepRow x row' t = .next (t.assign (d dst) value) [] →
      ∃ s' t' events, stepRow x row s = .next s' events ∧ stepRow x row' t = .next t' events ∧
        Lockstep row d s s' t t' := by
    intro dst value hout hs ht
    refine ⟨_, _, _, hs, ht, stepRow_framed hs, rfl, rfl, hlocs, hwld, ?_, fun u hu => ?_⟩
    · intro dst' hdst'
      obtain rfl : dst = dst' := by simpa [hout] using hdst'
      simp [State.assign]
    · exact State.assign_env_ne (hu dst (by simp [hout]))
  have hact : row'.instruction.action = row.instruction.action.rewrite r d := by
    rw [hrow, Instruction.action_rewrite]
  cases ha : row.instruction.action with
  | constant dst c =>
    have hi := Instruction.action_constant.mp ha
    rw [ha] at hact
    refine .inr (hassign dst (x.constant c) (by rw [hi]; rfl) ?_ ?_)
    · simp [stepRow, ha]
    · simp [stepRow, hact, Action.rewrite]
  | readLocal dst l =>
    have hi := Instruction.action_readLocal.mp ha
    rw [ha] at hact
    refine .inr (hassign dst (s.locals l) (by rw [hi]; rfl) ?_ ?_)
    · simp [stepRow, ha]
    · simp [stepRow, hact, Action.rewrite, hlocs]
  | copy dst src =>
    have hi := Instruction.action_copy.mp ha
    have hsrc := hinp src (by simp [hi, Instruction.inputs])
    rw [ha] at hact
    refine .inr (hassign dst (s.env src.temp) (by rw [hi]; rfl) ?_ ?_)
    · simp [stepRow, ha]
    · simp [stepRow, hact, Action.rewrite, hsrc]
  | writeLocal l src =>
    have hi := Instruction.action_writeLocal.mp ha
    have hsrc := hinp src (by simp [hi, Instruction.inputs])
    have hout : row.instruction.output = none := by rw [hi]; rfl
    rw [ha] at hact
    have hs : stepRow x row s = .next (s.store l (s.env src.temp))
        [.store row.span l (s.env src.temp)] := by
      simp [stepRow, ha]
    refine .inr ⟨_, t.store l (s.env src.temp), _, hs, ?_, stepRow_framed hs, rfl, rfl, ?_, hwld,
      by simp [hout], fun u _ => rfl⟩
    · simp [stepRow, hact, Action.rewrite, hsrc, hspan]
    · simp [State.store, hlocs]
  | operation =>
    rw [ha] at hact
    have hshp : row'.instruction.shape = row.instruction.shape := by
      rw [hrow]
      exact Instruction.shape_rewrite (fun v hv => (hr v hv).1) hd
    have hcalls : row'.instruction.effects.calls = row.instruction.effects.calls := by
      rw [hrow]
      exact Instruction.calls_rewrite r d _
    have hread : t.read row'.instruction.inputs = s.read row.instruction.inputs := by
      rw [hrow, Instruction.inputs_rewrite]
      unfold State.read
      rw [List.map_map]
      exact List.map_congr_left hinp
    have hout : row'.instruction.output = row.instruction.output.map d := by
      rw [hrow, Instruction.output_rewrite]
    cases hperf : x.perform row.instruction.shape (s.read row.instruction.inputs) s.locals
      s.world with
    | none =>
      refine .inl ⟨_, by simp [stepRow, ha, hperf]; rfl, ?_⟩
      simp [stepRow, hact, Action.rewrite, hshp, hread, hlocs, hwld, hperf, hspan]
    | some result =>
      have hs : stepRow x row s = .next (s.performed row.instruction.output
          row.instruction.effects.calls result)
          [.operation row.span row.instruction.shape (s.read row.instruction.inputs)] := by
        simp [stepRow, ha, hperf]
      refine .inr ⟨_, t.performed (row.instruction.output.map d) row.instruction.effects.calls
        result, _, hs, ?_, stepRow_framed hs, rfl, rfl, ?_, rfl, ?_, ?_⟩
      · simp [stepRow, hact, Action.rewrite, hshp, hread, hlocs, hwld, hperf, hspan,
          hcalls, hout]
      · simp [State.performed, hlocs]
      · intro dst hdst
        have hdst' : row.instruction.output = some dst := hdst
        simp [State.performed, hdst']
      · intro u hu
        cases hdst : row.instruction.output with
        | none => simp [State.performed]
        | some dst =>
          have hne := hu dst (by simp [hdst])
          simp [State.performed, Function.update_of_ne (Ne.symm hne)]

/-- A terminator and its copy over other temporaries, in states that agree. -/
theorem stepTerminator_lockstep {terminator : Option Terminator} (span : Option Span)
    (hwld : t.world = s.world)
    (hr : ∀ v, terminator.bind (·.input) = some v → t.env (r v).temp = s.env v.temp) :
    (∃ outcome, stepTerminator x terminator span s = .halt outcome ∧
      stepTerminator x (terminator.map (·.rewriteInput r)) span t = .halt outcome) ∨
    ∃ target, target ∈ terminator.elim [] (·.successors) ∧
      stepTerminator x terminator span s = .next (s.goto target) [] ∧
      stepTerminator x (terminator.map (·.rewriteInput r)) span t = .next (t.goto target) [] := by
  cases terminator with
  | none => exact .inl ⟨_, rfl, rfl⟩
  | some terminator =>
    cases terminator with
    | ret value =>
      refine .inl ⟨_, rfl, ?_⟩
      cases value with
      | none => simp [stepTerminator, Terminator.rewriteInput, hwld]
      | some v => simp [stepTerminator, Terminator.rewriteInput, hwld, hr v rfl]
    | jump target => exact .inr ⟨target, by simp [Terminator.successors], rfl, rfl⟩
    | branch cond thenBlock elseBlock =>
      refine .inr ⟨if x.truth (s.env cond.temp) then thenBlock else elseBlock, ?_, rfl, ?_⟩
      · simp only [Option.elim_some, Terminator.successors]
        split <;> simp
      · simp [stepTerminator, Terminator.rewriteInput, hr cond rfl]
    | unreachable => exact .inl ⟨_, rfl, rfl⟩

end Steps

end Execution

end Kagari.Mir
