import Kagari.Lib.Checked

/-!
# Results that tell values apart

`Outcomes` says what a computation can return and what it can stop with; a computation with a state may
start in any. Over it:

- `Stops E x`: every error of `x` has `E`
- `Reveals E C x x' P`: `x` and `x'` stop only with errors in `E` and, given `C`, two results of theirs are
  equal exactly when `P`
- `TellsApart E D f`: on the domain `D`, `f` stops only with errors in `E`, and its results are equal exactly
  when its arguments are

There is a rule for each way of building a computation. What its parts reveal is collected in `C`, for `pure`.
-/

namespace Lib

class Outcomes (m : Type → Type) (ε : outParam Type) [Monad m] where
  Returns {α : Type} : m α → α → Prop
  Throws {α : Type} : m α → ε → Prop
  pure_returns {α : Type} {a b : α} : Returns (pure a) b → a = b
  pure_throws {α : Type} {a : α} {e : ε} : ¬ Throws (pure a) e
  bind_returns {α β : Type} {x : m α} {f : α → m β} {b : β} :
    Returns (x >>= f) b → ∃ a, Returns x a ∧ Returns (f a) b
  bind_throws {α β : Type} {x : m α} {f : α → m β} {e : ε} :
    Throws (x >>= f) e → Throws x e ∨ ∃ a, Throws (f a) e

open Outcomes

instance {ε : Type} : Outcomes (Except ε) ε where
  Returns x a := x = .ok a
  Throws x e := x = .error e
  pure_returns := Except.ok.inj
  pure_throws h := by cases h
  bind_returns := bind_ok.mp
  bind_throws {_ _ x _ _} h := by
    cases x with
    | error first => exact .inl (congrArg Except.error (Except.error.inj h))
    | ok a => exact .inr ⟨a, h⟩

instance {σ ε : Type} : Outcomes (StateT σ (Except ε)) ε where
  Returns m a := ∃ s t, m.run s = .ok (a, t)
  Throws m e := ∃ s, m.run s = .error e
  pure_returns := by
    rintro _ _ _ ⟨_, _, h⟩
    exact (Prod.mk.inj (Except.ok.inj h)).1
  pure_throws := by
    rintro _ _ _ ⟨_, h⟩
    cases h
  bind_returns := by
    rintro _ _ _ _ _ ⟨s, t, h⟩
    rw [StateT.run_bind] at h
    obtain ⟨⟨a, u⟩, ha, hb⟩ := bind_ok.mp h
    exact ⟨a, ⟨s, u, ha⟩, u, t, hb⟩
  bind_throws := by
    rintro _ _ x _ _ ⟨s, h⟩
    rw [StateT.run_bind] at h
    cases hx : x.run s with
    | error first =>
      rw [hx] at h
      exact .inl ⟨s, hx.trans (congrArg Except.error (Except.error.inj h))⟩
    | ok out =>
      rw [hx] at h
      exact .inr ⟨out.1, out.2, h⟩

variable {m : Type → Type} [Monad m] {ε ε' σ α β ρ : Type} [Outcomes m ε] {E : ε → Prop} {C P Q : Prop}
  {D : α → Prop}

/-! ## Errors -/

def Stops (E : ε → Prop) (x : m α) : Prop := ∀ e, Throws x e → E e

namespace Stops

theorem pure {a : α} : Stops E (Pure.pure a : m α) := fun _ h => absurd h pure_throws

theorem bind {x : m α} {f : α → m β} (hx : Stops E x) (hf : ∀ a, Stops E (f a)) : Stops E (x >>= f) :=
  fun e h => (bind_throws h).elim (hx e) fun ⟨a, ha⟩ => hf a e ha

theorem mapM [LawfulMonad m] {f : α → m β} {l : List α} (h : ∀ a ∈ l, Stops E (f a)) : Stops E (l.mapM f) := by
  induction l with
  | nil => exact pure
  | cons a l ih =>
    obtain ⟨hhead, htail⟩ := List.forall_mem_cons.mp h
    rw [List.mapM_cons]
    exact bind hhead fun b => bind (ih htail) fun bs => pure

theorem ok {E : ε → Prop} {a : α} : Stops E (.ok a : Except ε α) := pure

theorem mapError {x : Except ε α} {g : ε → ε'} {E : ε' → Prop} (hx : Stops (fun e => E (g e)) x) :
    Stops E (x.mapError g) := by
  cases x with
  | error e => exact fun _ h => Except.error.inj h ▸ hx e rfl
  | ok a => exact ok

theorem throw {E : ε → Prop} {e : ε} (h : E e) : Stops E (MonadExcept.throw e : StateT σ (Except ε) α) := by
  rintro e' ⟨s, hs⟩
  exact Except.error.inj hs ▸ h

theorem fails {E : ε → Prop} {x : StateT σ (Except ε) α} (h : Stops E x) : Fails x E := fun s e hs => h e ⟨s, hs⟩

theorem lift {E : ε → Prop} {x : Except ε α} (h : Stops E x) : Stops E (liftM x : StateT σ (Except ε) α) := by
  rintro e ⟨s, hs⟩
  cases x with
  | error first => exact h e (congrArg Except.error (Except.error.inj hs))
  | ok a => cases hs

end Stops

/-! ## Results -/

structure Reveals (E : ε → Prop) (C : Prop) (x x' : m ρ) (P : Prop) : Prop where
  left : Stops E x
  right : Stops E x'
  iff : C → ∀ r r', Returns x r → Returns x' r' → (r = r' ↔ P)

namespace Reveals

theorem pure {r r' : ρ} (h : C → (r = r' ↔ P)) : Reveals E C (Pure.pure r : m ρ) (Pure.pure r') P := by
  refine ⟨.pure, .pure, fun hc a a' ha ha' => ?_⟩
  rw [← pure_returns ha, ← pure_returns ha']
  exact h hc

theorem bind {x x' : m α} {f f' : α → m β} (hx : Reveals E True x x' P)
    (hf : ∀ a a', Reveals E (C ∧ (a = a' ↔ P)) (f a) (f' a') Q) : Reveals E C (x >>= f) (x' >>= f') Q := by
  refine ⟨.bind hx.left fun a => (hf a a).left, .bind hx.right fun a => (hf a a).right, fun hc r r' hr hr' => ?_⟩
  obtain ⟨a, ha, hfa⟩ := bind_returns hr
  obtain ⟨a', ha', hfa'⟩ := bind_returns hr'
  exact (hf a a').iff ⟨hc, hx.iff trivial a a' ha ha'⟩ r r' hfa hfa'

/-- What is made of a result that tells apart. -/
theorem map {x x' : m α} {f f' : α → β} (hx : Reveals E True x x' P)
    (h : ∀ a a', (a = a' ↔ P) → (f a = f' a' ↔ Q)) :
    Reveals E C (do return f (← x)) (do return f' (← x')) Q :=
  .bind hx fun a a' => .pure fun hc => h a a' hc.2

/-- Behind a step whose value is not used. -/
theorem seq {x x' : m α} {y y' : m β} (hx : Stops E x) (hx' : Stops E x') (h : Reveals E C y y' P) :
    Reveals E C (do let _ ← x; y) (do let _ ← x'; y') P := by
  refine ⟨.bind hx fun _ => h.left, .bind hx' fun _ => h.right, fun hc r r' hr hr' => ?_⟩
  obtain ⟨_, -, hy⟩ := bind_returns hr
  obtain ⟨_, -, hy'⟩ := bind_returns hr'
  exact h.iff hc r r' hy hy'

theorem mapError {x x' : Except ε ρ} {g : ε → ε'} {E : ε' → Prop} (h : Reveals (fun e => E (g e)) C x x' P) :
    Reveals E C (x.mapError g) (x'.mapError g) P := by
  refine ⟨h.left.mapError, h.right.mapError, fun hc r r' hr hr' => ?_⟩
  cases x with
  | error e => cases hr
  | ok a =>
    cases x' with
    | error e => cases hr'
    | ok a' =>
      rw [← Except.ok.inj hr, ← Except.ok.inj hr']
      exact h.iff hc a a' rfl rfl

theorem lift {E : ε → Prop} {x x' : Except ε ρ} (h : Reveals E C x x' P) :
    Reveals E C (liftM x : StateT σ (Except ε) ρ) (liftM x') P := by
  refine ⟨h.left.lift, h.right.lift, ?_⟩
  rintro hc r r' ⟨s, t, hr⟩ ⟨s', t', hr'⟩
  exact h.iff hc r r' (Ensures.lift s r t hr) (Ensures.lift s' r' t' hr')

theorem guarded {E : ε → Prop} {c c' : Prop} [Decidable c] [Decidable c'] {e : ε} {x x' : StateT σ (Except ε) ρ}
    (he : E e) (h : Reveals E C x x' P) :
    Reveals E C (if c then MonadExcept.throw e else x) (if c' then MonadExcept.throw e else x') P := by
  refine ⟨?_, ?_, fun hc r r' hr hr' => ?_⟩
  · split
    · exact .throw he
    · exact h.left
  · split
    · exact .throw he
    · exact h.right
  · split at hr
    · obtain ⟨s, t, hr⟩ := hr
      cases hr
    · split at hr'
      · obtain ⟨s, t, hr'⟩ := hr'
        cases hr'
      · exact h.iff hc r r' hr hr'

end Reveals

/-! ## Functions that tell apart -/

def TellsApart (E : ε → Prop) (D : α → Prop) (f : α → m ρ) : Prop :=
  ∀ a a', D a → D a' → Reveals E True (f a) (f a') (a = a')

/-- A computation on an optional value, if there is one. -/
def optional (f : α → m β) : Option α → m (Option β)
  | none => pure none
  | some a => do return some (← f a)

namespace TellsApart

theorem of_injective {E : ε → Prop} {f : α → Except ε ρ} (hstops : ∀ a, D a → Stops E (f a))
    (hinj : ∀ a a' r, D a → D a' → f a = .ok r → f a' = .ok r → a = a') : TellsApart E D f := by
  refine fun a a' ha ha' => ⟨hstops a ha, hstops a' ha', fun _ r r' hr hr' => ⟨?_, ?_⟩⟩
  · rintro rfl
    exact hinj a a' r ha ha' hr hr'
  · rintro rfl
    exact Except.ok.inj (hr.symm.trans hr')

theorem inj {f : α → m ρ} (h : TellsApart E D f) {a a' : α} {r : ρ} (ha : D a) (ha' : D a') (hr : Returns (f a) r)
    (hr' : Returns (f a') r) : a = a' := ((h a a' ha ha').iff trivial r r hr hr').mp rfl

theorem stops {f : α → m ρ} (h : TellsApart E D f) {a : α} (ha : D a) : Stops E (f a) := (h a a ha ha).left

theorem mapM [LawfulMonad m] {f : α → m β} (h : TellsApart E D f) :
    TellsApart E (fun l : List α => ∀ a ∈ l, D a) fun l => l.mapM f := by
  have hcons {a : α} {l : List α} {bs : List β} (hbs : Returns ((a :: l).mapM f) bs) : bs ≠ [] := by
    rw [List.mapM_cons] at hbs
    obtain ⟨b, -, hbs⟩ := bind_returns hbs
    obtain ⟨rest, -, hbs⟩ := bind_returns hbs
    rw [← pure_returns hbs]
    exact List.cons_ne_nil b rest
  have hstops {l : List α} (hl : ∀ a ∈ l, D a) : Stops E (l.mapM f) := .mapM fun a ha => h.stops (hl a ha)
  intro l
  induction l with
  | nil =>
    intro l' hl hl'
    refine ⟨hstops hl, hstops hl', fun _ r r' hr hr' => ?_⟩
    rw [← pure_returns hr]
    cases l' with
    | nil => simp [← pure_returns hr']
    | cons a' l' => simp [(hcons hr').symm]
  | cons a l ih =>
    intro l' hl hl'
    cases l' with
    | nil =>
      refine ⟨hstops hl, hstops hl', fun _ r r' hr hr' => ?_⟩
      rw [← pure_returns hr']
      simp [hcons hr]
    | cons a' l' =>
      obtain ⟨ha, hl⟩ := List.forall_mem_cons.mp hl
      obtain ⟨ha', hl'⟩ := List.forall_mem_cons.mp hl'
      dsimp only
      rw [List.mapM_cons, List.mapM_cons]
      refine .bind (h a a' ha ha') fun b b' => .bind (ih l' hl hl') fun bs bs' => .pure ?_
      rintro ⟨⟨-, hb⟩, hbs⟩
      simp [hb, hbs]

theorem optional {f : α → m β} (h : TellsApart E D f) : TellsApart E (fun o => ∀ a ∈ o, D a) (optional f) := by
  have hsome {a : α} {o : Option β} (ho : Returns (do return some (← f a)) o) : o ≠ none := by
    obtain ⟨b, -, hb⟩ := bind_returns ho
    simp [← pure_returns hb]
  intro o o' ho ho'
  cases o with
  | none =>
    cases o' with
    | none => exact .pure (by simp)
    | some a' =>
      refine ⟨.pure, .bind (h.stops (ho' a' rfl)) fun _ => .pure, fun _ r r' hr hr' => ?_⟩
      rw [← pure_returns hr]
      simpa using (hsome hr').symm
  | some a =>
    cases o' with
    | none =>
      refine ⟨.bind (h.stops (ho a rfl)) fun _ => .pure, .pure, fun _ r r' hr hr' => ?_⟩
      rw [← pure_returns hr']
      simpa using hsome hr
    | some a' =>
      refine .bind (h a a' (ho a rfl) (ho' a' rfl)) fun b b' => .pure ?_
      rintro ⟨-, hb⟩
      simp [hb]

end TellsApart

end Lib
