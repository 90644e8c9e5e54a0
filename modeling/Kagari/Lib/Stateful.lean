import Mathlib.Order.Defs.Unbundled

/-!
# Computations that keep their state when they stop

A method that changes its receiver and may return early with an error leaves the changes it has made.
`exec` runs such a computation from a state to its result and the state it leaves. `Grows I R m s P`
says of the run from `s`: the invariant `I` holds afterwards and the state has only grown along `R`,
whether it stopped early or not; a returned value has `P`. `Reads m` says that a run leaves any state
as it is.
-/

namespace Lib

/-- Computations over a state that stays as it is when they stop with an error. -/
abbrev Stateful (σ ε α : Type) := ExceptT ε (StateM σ) α

variable {σ ε α β : Type}

variable {f : α → Stateful σ ε β} {m : Stateful σ ε α} (r : Except ε α)

namespace Stateful

/-- The result of a run, and the state it leaves. -/
def exec (m : Stateful σ ε α) (s : σ) : Except ε α × σ := m.run.run s

@[simp] theorem exec_pure (a : α) (s : σ) : exec (pure a : Stateful σ ε α) s = (.ok a, s) := rfl

@[simp] theorem exec_throw (e : ε) (s : σ) :
    exec (throw e : Stateful σ ε α) s = (.error e, s) := rfl

@[simp] theorem exec_modify (g : σ → σ) (s : σ) :
    exec (modify g : Stateful σ ε Unit) s = (.ok (), g s) := rfl

theorem exec_bind (m : Stateful σ ε α) (f : α → Stateful σ ε β) (s : σ) :
    exec (m >>= f) s = match exec m s with
      | (.ok a, s') => exec (f a) s'
      | (.error e, s') => (.error e, s') := by
  have hrun : exec (m >>= f) s = (ExceptT.bindCont f (exec m s).1).run (exec m s).2 := rfl
  rw [hrun]
  rcases exec m s with ⟨r, s'⟩
  cases r with
  | ok a => rfl
  | error e => rfl

@[simp] theorem exec_get_bind (f : σ → Stateful σ ε β) (s : σ) :
    exec (get >>= f) s = exec (f s) s := rfl

theorem exec_bind_ok {s s' : σ} {a : α}
    (h : exec m s = (.ok a, s')) : exec (m >>= f) s = exec (f a) s' := by
  rw [exec_bind, h]

theorem exec_bind_error {s s' : σ} {e : ε}
    (h : exec m s = (.error e, s')) : exec (m >>= f) s = (.error e, s') := by
  rw [exec_bind, h]

@[simp] theorem exec_lift (s : σ) : exec (liftM r : Stateful σ ε α) s = (r, s) := by
  cases r <;> rfl

/-- A part that does not use the state: it stops, or the rest runs from the same one. -/
theorem exec_check (f : α → Stateful σ ε β) (s : σ) :
    (∃ e, r = .error e ∧ exec ((liftM r : Stateful σ ε α) >>= f) s = (.error e, s)) ∨
      ∃ a, r = .ok a ∧ exec ((liftM r : Stateful σ ε α) >>= f) s = exec (f a) s := by
  cases r with
  | ok a => exact .inr ⟨a, rfl, rfl⟩
  | error e => exact .inl ⟨e, rfl, rfl⟩

/-- A computation that leaves every state as it is. -/
def Reads (m : Stateful σ ε α) : Prop := ∀ s, (exec m s).2 = s

namespace Reads

theorem get : Reads (get : Stateful σ ε σ) := fun _ => rfl

theorem pure (a : α) : Reads (Pure.pure a : Stateful σ ε α) := fun _ => rfl

theorem throw (e : ε) : Reads (MonadExcept.throw e : Stateful σ ε α) := fun _ => rfl

theorem lift : Reads (liftM r : Stateful σ ε α) := by
  intro s
  rw [exec_lift]

theorem bind (hm : Reads m) (hf : ∀ a, Reads (f a)) :
    Reads (m >>= f) := by
  intro s
  have hs := hm s
  rw [exec_bind]
  rcases hrun : exec m s with ⟨r, s'⟩
  rw [hrun] at hs
  cases r with
  | ok a => exact (hf a s').trans hs
  | error e => exact hs

end Reads

end Stateful

open Stateful

/-- What a run from `s` keeps, how the state grows, and what is known of a returned value. -/
structure Grows (I : σ → Prop) (R : σ → σ → Prop) (m : Stateful σ ε α) (s : σ)
    (P : α → σ → Prop) : Prop where
  keeps : I (exec m s).2
  grows : R s (exec m s).2
  value : ∀ a, (exec m s).1 = .ok a → P a (exec m s).2

namespace Grows

variable {I : σ → Prop} {R : σ → σ → Prop} {m : Stateful σ ε α} {f : α → Stateful σ ε β} {s : σ}
  {P Q : α → σ → Prop}

theorem pure [Std.Refl R] {a : α} (hs : I s) (h : P a s) :
    Grows I R (Pure.pure a : Stateful σ ε α) s P := by
  refine ⟨hs, Std.Refl.refl s, ?_⟩
  rintro b hb
  cases hb
  exact h

theorem throw [Std.Refl R] {e : ε} (hs : I s) :
    Grows I R (MonadExcept.throw e : Stateful σ ε α) s P :=
  ⟨hs, Std.Refl.refl s, nofun⟩

theorem bind [IsTrans σ R] {Q : β → σ → Prop} (hm : Grows I R m s P)
    (hf : ∀ a s', I s' → R s s' → P a s' → Grows I R (f a) s' Q) : Grows I R (m >>= f) s Q := by
  obtain ⟨hkp, hgr, hval⟩ := hm
  rcases hrun : exec m s with ⟨r, s'⟩
  rw [hrun] at hkp hgr hval
  cases r with
  | error e =>
    have hbind := exec_bind_error (f := f) hrun
    refine ⟨?_, ?_, ?_⟩
    · rw [hbind]
      exact hkp
    · rw [hbind]
      exact hgr
    · rw [hbind]
      exact nofun
  | ok a =>
    have hbind := exec_bind_ok (f := f) hrun
    obtain ⟨hkp', hgr', hval'⟩ := hf a s' hkp hgr (hval a rfl)
    refine ⟨?_, ?_, ?_⟩
    · rw [hbind]
      exact hkp'
    · rw [hbind]
      exact IsTrans.trans _ _ _ hgr hgr'
    · rw [hbind]
      exact hval'

/-- Reading the state. -/
theorem get_bind {g : σ → Stateful σ ε α} (h : Grows I R (g s) s P) : Grows I R (get >>= g) s P :=
  ⟨h.keeps, h.grows, h.value⟩

theorem mono (hm : Grows I R m s P) (h : ∀ a s', I s' → R s s' → P a s' → Q a s') :
    Grows I R m s Q :=
  ⟨hm.keeps, hm.grows, fun a ha => h a _ hm.keeps hm.grows (hm.value a ha)⟩

variable {r : Except ε α}

theorem of_exec {s' : σ} (hrun : exec m s = (r, s')) (hs : I s') (hR : R s s')
    (hP : ∀ a, r = .ok a → P a s') : Grows I R m s P := by
  refine ⟨?_, ?_, ?_⟩
  · rw [hrun]
    exact hs
  · rw [hrun]
    exact hR
  · rw [hrun]
    exact hP

/-- A part that leaves the state as it is. -/
theorem read [Std.Refl R] {Q : β → σ → Prop} (hm : Reads m) (hs : I s)
    (hf : ∀ a, exec m s = (.ok a, s) → Grows I R (f a) s Q) : Grows I R (m >>= f) s Q := by
  rcases hrun : exec m s with ⟨r, s'⟩
  obtain rfl : s' = s := by simpa [hrun] using hm s
  cases r with
  | ok a =>
    have hrest := hf a hrun
    have hbind := exec_bind_ok (f := f) hrun
    refine ⟨?_, ?_, ?_⟩
    all_goals rw [hbind]
    · exact hrest.keeps
    · exact hrest.grows
    · exact hrest.value
  | error e => exact of_exec (exec_bind_error hrun) hs (Std.Refl.refl _) nofun

/-- A part that does not use the state. -/
theorem check [Std.Refl R] {Q : β → σ → Prop} (hs : I s) (hf : ∀ a, r = .ok a → Grows I R (f a) s Q) :
    Grows I R ((liftM r : Stateful σ ε α) >>= f) s Q := by
  cases r with
  | ok a => exact hf a rfl
  | error e => exact of_exec (exec_bind_error rfl) hs (Std.Refl.refl _) nofun

theorem lift [Std.Refl R] {P : α → σ → Prop} (hs : I s) (h : ∀ a, r = .ok a → P a s) :
    Grows I R (liftM r : Stateful σ ε α) s P := by
  cases r with
  | ok a => exact of_exec rfl hs (Std.Refl.refl _) fun b hb => h b hb
  | error e => exact of_exec rfl hs (Std.Refl.refl _) nofun

end Grows

end Lib
