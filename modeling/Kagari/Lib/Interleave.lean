import Mathlib.Data.List.Basic

/-!
# Interleaved programs

- `Prog`: a program over atomic actions, as the tree of what it does after each answer
- `Interleaving.run`: threads take their actions in any order, and new ones start at any time; an
  oracle gives the answers that the state does not determine
- `Prog.Leads`: a program performs an action of a kind, whatever answers of a kind it gets
- `Prog.Always`: what a program ensures after each of its actions, up to a last one
-/

namespace Lib

inductive Prog (A : Type) (R : A → Type) (α : Type) where
  | pure (value : α)
  | act (action : A) (next : R action → Prog A R α)

namespace Prog

variable {A : Type} {R : A → Type} {α β : Type}

def bind : Prog A R α → (α → Prog A R β) → Prog A R β
  | .pure value, f => f value
  | .act a next, f => .act a fun r => (next r).bind f

instance : Monad (Prog A R) where
  pure := .pure
  bind := bind

/-- The program of one action. -/
def perform (a : A) : Prog A R (R a) := .act a .pure

theorem bind_bind {γ : Type} (p : Prog A R α) (f : α → Prog A R β) (g : β → Prog A R γ) :
    (p >>= f >>= g) = (p >>= fun value => f value >>= g) := by
  induction p with
  | pure value => rfl
  | act a next ih => exact congrArg (act a) (funext ih)

/-- Whatever answers that `ok` allows it gets, the program performs an action of `goal`. -/
inductive Leads (goal : A → Prop) (ok : (a : A) → R a → Prop) : Prog A R α → Prop where
  | now {a : A} {next : R a → Prog A R α} (h : goal a) : Leads goal ok (.act a next)
  | later {a : A} {next : R a → Prog A R α} (h : ∀ r, ok a r → Leads goal ok (next r)) :
    Leads goal ok (.act a next)

/-- `post` holds of every action, its answer and the rest of the program, up to an action of `stop`. -/
inductive Always (stop : A → Prop) (post : (a : A) → R a → Prog A R α → Prop) : Prog A R α → Prop where
  | pure (value : α) : Always stop post (.pure value)
  | last {a : A} {next : R a → Prog A R α} (h : stop a) : Always stop post (.act a next)
  | act {a : A} {next : R a → Prog A R α} (hpost : ∀ r, post a r (next r))
      (hrest : ∀ r, Always stop post (next r)) : Always stop post (.act a next)

variable {goal stop : A → Prop} {ok : (a : A) → R a → Prop}

theorem Leads.bind {p : Prog A R α} (h : Leads goal ok p) (f : α → Prog A R β) : Leads goal ok (p >>= f) := by
  induction h with
  | now h => exact .now h
  | later _ ih => exact .later fun r hr => ih r hr

end Prog

/-! ## Threads -/

structure Threads (S A : Type) (R : A → Type) where
  state : S
  threads : List (Prog A R Unit)

/-- A choice of the scheduler: start an operation, or take the next action of a thread, with the
oracle's answer. -/
inductive Choice (O Ω : Type) where
  | start (operation : O)
  | step (thread : Nat) (oracle : Ω)

namespace Threads

variable {S A : Type} {R : A → Type} {O Ω : Type} (code : O → Prog A R Unit)
  (exec : Ω → (a : A) → S → S × R a)

def choose (c : Threads S A R) : Choice O Ω → Threads S A R
  | .start operation => ⟨c.state, c.threads ++ [code operation]⟩
  | .step i oracle =>
    match c.threads[i]? with
    | some (.act a next) =>
      let result := exec oracle a c.state
      ⟨result.1, c.threads.set i (next result.2)⟩
    | _ => c

def run (c : Threads S A R) (choices : List (Choice O Ω)) : Threads S A R :=
  choices.foldl (choose code exec) c

variable {code exec}

/-- What starting an operation and every action keep, every interleaving keeps. -/
theorem run_invariant {I : Threads S A R → Prop}
    (hst : ∀ s threads operation, I ⟨s, threads⟩ → I ⟨s, threads ++ [code operation]⟩)
    (hstep : ∀ s threads i oracle a next, threads[i]? = some (.act a next) → I ⟨s, threads⟩ →
      I ⟨(exec oracle a s).1, threads.set i (next (exec oracle a s).2)⟩)
    {c : Threads S A R} (hc : I c) (choices : List (Choice O Ω)) : I (run code exec c choices) := by
  induction choices generalizing c with
  | nil => exact hc
  | cons choice choices ih =>
    apply ih
    cases choice with
    | start operation => exact hst _ _ operation hc
    | step i oracle =>
      simp only [choose]
      split
      · exact hstep _ _ i oracle _ _ ‹_› hc
      · exact hc

end Threads

end Lib
