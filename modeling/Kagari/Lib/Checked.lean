import Mathlib.Algebra.Ring.Nat
import Kagari.Lib.SortedMap

/-!
# Postconditions of checked computations

A checked computation threads a state and may stop with an error. `Ensures m P` is partial
correctness: whenever `m` returns, whatever the state it started in, its value has `P`. `Fails m E`
says the same of its errors. Where the state is a number of steps left, `Affords m a n` is total
correctness: with `n` steps `m` returns `a`. The rules are one for each way of building a computation,
and one for a loop over a list.
-/

namespace Lib

variable {σ ε α β : Type}

/-- Every value that `m` returns has `P`. -/
def Ensures (m : StateT σ (Except ε) α) (P : α → Prop) : Prop :=
  ∀ s a s', m.run s = .ok (a, s') → P a

variable {P : α → Prop} {Q : β → Prop} {a : α} {g : α → β} {l : List α}

namespace Ensures

theorem pure (h : P a) :
    Ensures (Pure.pure a : StateT σ (Except ε) α) P := by
  intro s b s' hrun
  rw [StateT.run_pure] at hrun
  obtain ⟨rfl, rfl⟩ : a = b ∧ s = s' := by simpa [Pure.pure, Except.pure] using hrun
  exact h

theorem throw {e : ε} :
    Ensures (MonadExcept.throw e : StateT σ (Except ε) α) P := by
  intro s a s' hrun
  cases hrun

variable {m : StateT σ (Except ε) α}

variable {f : α → StateT σ (Except ε) β}

theorem bind
    (hm : Ensures m P) (hf : ∀ a, P a → Ensures (f a) Q) :
    Ensures (m >>= f) Q := by
  intro s b s' hrun
  rw [StateT.run_bind] at hrun
  obtain ⟨⟨a, t⟩, hfst, hrest⟩ := bind_ok.mp hrun
  exact hf a (hm s a t hfst) t b s' hrest

/-- A computation about which nothing needs to be known. -/
theorem any : Ensures m (fun _ => True) :=
  fun _ _ _ _ => trivial

/-- A part that does not use the state. -/
theorem lift {e : Except ε α} : Ensures (liftM e : StateT σ (Except ε) α) (fun a => e = .ok a) := by
  intro s a s' hrun
  cases e with
  | error err => cases hrun
  | ok value =>
    have heq : (value, s) = (a, s') := Except.ok.inj hrun
    rw [(Prod.mk.inj heq).1]

/-- What is returned was returned by some run. -/
theorem returned :
    Ensures m (fun a => ∃ s s', m.run s = .ok (a, s')) :=
  fun s _ s' hrun => ⟨s, s', hrun⟩

theorem mono {P Q : α → Prop} (hm : Ensures m P)
    (h : ∀ a, P a → Q a) : Ensures m Q :=
  fun s a s' hrun => h a (hm s a s' hrun)

theorem and {P Q : α → Prop} (hP : Ensures m P) (hQ : Ensures m Q) :
    Ensures m (fun a => P a ∧ Q a) :=
  fun s a s' hrun => ⟨hP s a s' hrun, hQ s a s' hrun⟩

/-- First a step whose value does not matter. -/
theorem seq {n : StateT σ (Except ε) β}
    (hn : Ensures n Q) : Ensures (do let _ ← m; n) Q :=
  bind any (fun _ _ => hn)

/-- A traversal whose turns return the values of a function returns its values. -/
theorem mapM
    (h : ∀ a ∈ l, Ensures (f a) (· = g a)) : Ensures (l.mapM f) (· = l.map g) := by
  induction l with
  | nil =>
    rw [List.mapM_nil]
    exact pure rfl
  | cons a l ih =>
    obtain ⟨hhead, htail⟩ := List.forall_mem_cons.mp h
    rw [List.mapM_cons]
    refine bind hhead ?_
    rintro b rfl
    refine bind (ih htail) ?_
    rintro bs rfl
    exact pure rfl

/-- A guarded continuation. -/
theorem guarded {c : Prop} [Decidable c] {e : ε}
    (hm : ¬c → Ensures m P) : Ensures (if c then MonadExcept.throw e else m) P := by
  split
  · exact throw
  · rename_i hc
    exact hm hc

end Ensures

/-- Every error that `m` stops with has `E`. -/
def Fails (m : StateT σ (Except ε) α) (E : ε → Prop) : Prop :=
  ∀ s e, m.run s = .error e → E e

namespace Fails

variable {E : ε → Prop}

theorem pure : Fails (Pure.pure a : StateT σ (Except ε) α) E := by
  intro s e hrun
  cases hrun

theorem throw {e : ε} (h : E e) : Fails (MonadExcept.throw e : StateT σ (Except ε) α) E := by
  intro s e' hrun
  have heq : e = e' := Except.error.inj hrun
  rw [← heq]
  exact h

variable {e : Except ε α}

/-- A part that does not use the state. -/
theorem lift_of (h : ∀ err, e = .error err → E err) :
    Fails (liftM e : StateT σ (Except ε) α) E := by
  intro s err hrun
  cases e with
  | error first => exact h err (congrArg Except.error (Except.error.inj hrun))
  | ok value => cases hrun

theorem lift (h : e = .ok a) :
    Fails (liftM e : StateT σ (Except ε) α) E := by
  subst h
  exact lift_of nofun

variable {m : StateT σ (Except ε) α}

theorem mono {E' : ε → Prop} (hm : Fails m E) (h : ∀ e, E e → E' e) :
    Fails m E' :=
  fun s e hrun => h e (hm s e hrun)

variable {f : α → StateT σ (Except ε) β}

theorem bind
    (hm : Fails m E) (hP : Ensures m P) (hf : ∀ a, P a → Fails (f a) E) : Fails (m >>= f) E := by
  intro s e hrun
  rw [StateT.run_bind] at hrun
  cases hfst : m.run s with
  | error first =>
    rw [hfst] at hrun
    have heq : first = e := Except.error.inj hrun
    rw [← heq]
    exact hm s first hfst
  | ok out =>
    rw [hfst] at hrun
    exact hf out.1 (hP s out.1 out.2 hfst) out.2 e hrun

/-- A continuation that does not depend on what the first part returns. -/
theorem seq (hm : Fails m E)
    (hf : ∀ a, Fails (f a) E) : Fails (m >>= f) E :=
  bind hm Ensures.any (fun a _ => hf a)

end Fails

/-- What a computation returns and what it stops with, one part after the other. -/
theorem outcome_bind {m : StateT σ (Except ε) α} {f : α → StateT σ (Except ε) β}
    {E : ε → Prop} (hm : Ensures m P ∧ Fails m E) (hf : ∀ a, P a → Ensures (f a) Q ∧ Fails (f a) E) :
    Ensures (m >>= f) Q ∧ Fails (m >>= f) E :=
  ⟨.bind hm.1 fun a ha => (hf a ha).1, .bind hm.2 hm.1 fun a ha => (hf a ha).2⟩

/-! ## Steps -/

/-- With at least `n` steps left, `m` returns `a` and takes no more than those. -/
def Affords (m : StateT Nat (Except ε) α) (a : α) (n : Nat) : Prop :=
  ∀ s, n ≤ s → ∃ s', m.run s = .ok (a, s') ∧ s ≤ s' + n

namespace Affords

theorem pure : Affords (Pure.pure a : StateT Nat (Except ε) α) a 0 :=
  fun s _ => ⟨s, rfl, Nat.le_refl _⟩

variable {m : StateT Nat (Except ε) α}

variable {f : α → StateT Nat (Except ε) β}

theorem bind {b : β}
    {n k : Nat} (hm : Affords m a n) (hf : Affords (f a) b k) : Affords (m >>= f) b (n + k) := by
  intro s hs
  obtain ⟨t, hrun, ht⟩ := hm s (by omega)
  obtain ⟨s', hrun', hs'⟩ := hf t (by omega)
  refine ⟨s', ?_, by omega⟩
  rw [StateT.run_bind, hrun]
  exact hrun'

/-- A function of the value. -/
theorem returning {n : Nat} (hm : Affords m a n) :
    Affords (do return g (← m)) (g a) n :=
  bind (k := 0) hm pure

theorem mono {n k : Nat} (hm : Affords m a n) (h : n ≤ k) :
    Affords m a k := by
  intro s hs
  obtain ⟨s', hrun, hs'⟩ := hm s (by omega)
  exact ⟨s', hrun, by omega⟩

/-- A guard that holds. -/
theorem guarded {c : Prop} [Decidable c] {e : ε} {n : Nat}
    (hc : ¬c) (hm : Affords m a n) : Affords (if c then MonadExcept.throw e else m) a n := by
  rw [if_neg hc]
  exact hm

theorem mapM {cost : α → Nat}
    (h : ∀ a ∈ l, Affords (f a) (g a) (cost a)) : Affords (l.mapM f) (l.map g) (l.map cost).sum := by
  induction l with
  | nil => exact pure
  | cons a l ih =>
    obtain ⟨hhead, htail⟩ := List.forall_mem_cons.mp h
    rw [List.mapM_cons, List.map_cons, List.map_cons, List.sum_cons]
    exact bind hhead (returning (ih htail))

end Affords

end Lib
