import Mathlib.Data.List.Basic

/-!
# Machines and what is observed of them

A machine is a deterministic step function: in each state it goes on, with the events of the step,
or ends with an outcome. Two machines have the same behaviour (`SameBehaviour`) when they show the
same events, also in runs that do not end, and end with the same outcomes.

`Simulation.same` proves it from a relation that is checked one step at a time. The first machine
may take several steps for one step of the second, and may go on alone without an event as long as
a rank gets smaller.
-/

namespace Lib

/-- What a machine does in a state. -/
inductive Step (σ ε ο : Type) where
  | next (state : σ) (events : List ε)
  | halt (outcome : ο)

namespace Machine

variable {σ τ ε ο : Type}

/-- The events of the first `n` steps, and where they end. -/
def run (m : σ → Step σ ε ο) : Nat → σ → List ε × (σ ⊕ ο)
  | 0, s => ([], .inl s)
  | n + 1, s =>
    match m s with
    | .halt outcome => ([], .inr outcome)
    | .next s' events => (events ++ (run m n s').1, (run m n s').2)

/-- The states that the first `n` steps start from. -/
def trail (m : σ → Step σ ε ο) : Nat → σ → List σ
  | 0, _ => []
  | n + 1, s =>
    match m s with
    | .halt _ => []
    | .next s' _ => s :: trail m n s'

/-- The run from `s` shows `events` before anything else. -/
def Emits (m : σ → Step σ ε ο) (s : σ) (events : List ε) : Prop :=
  ∃ n, events <+: (run m n s).1

/-- The run from `s` ends with `outcome`, having shown exactly `events`. -/
def Halts (m : σ → Step σ ε ο) (s : σ) (events : List ε) (outcome : ο) : Prop :=
  ∃ n, run m n s = (events, .inr outcome)

/-- No observer tells the two runs apart. -/
structure SameBehaviour (m : σ → Step σ ε ο) (s : σ) (m' : τ → Step τ ε ο) (t : τ) : Prop where
  emits : ∀ events, Emits m s events ↔ Emits m' t events
  halts : ∀ events outcome, Halts m s events outcome ↔ Halts m' t events outcome

variable {events : List ε} {s : σ}

section Run

variable {m : σ → Step σ ε ο}

theorem run_halt {outcome : ο} (h : m s = .halt outcome) (n : Nat) :
    run m (n + 1) s = ([], .inr outcome) := by
  simp [run, h]

theorem run_next {s s' : σ} (h : m s = .next s' events) (n : Nat) :
    run m (n + 1) s = (events ++ (run m n s').1, (run m n s').2) := by
  simp [run, h]

/-- A run goes on from where its first part ends. -/
theorem run_add {k : Nat} : ∀ {s s' : σ} {events : List ε},
    run m k s = (events, .inl s') → ∀ n,
      run m (k + n) s = (events ++ (run m n s').1, (run m n s').2) := by
  induction k with
  | zero =>
    intro s s' events h n
    obtain ⟨rfl, hs⟩ := Prod.mk.inj h
    cases hs
    simp
  | succ k ih =>
    intro s s' events h n
    rw [show k + 1 + n = k + n + 1 by omega]
    cases hs : m s with
    | halt outcome => simp [run_halt hs] at h
    | next u first =>
      rw [run_next hs] at h ⊢
      obtain ⟨rfl, hend⟩ := Prod.mk.inj h
      have hrest := ih (Prod.ext rfl hend) n
      rw [hrest]
      simp

/-- Where a run is and how it got there, or how it has ended. -/
theorem run_trail {I : List σ → σ → Prop} {O : ο → Prop}
    (hstep : ∀ before s s' events, I before s → m s = .next s' events → I (before ++ [s]) s')
    (hhalt : ∀ before s outcome, I before s → m s = .halt outcome → O outcome) (n : Nat) :
    ∀ (before : List σ) {s : σ}, I before s → (run m n s).2.elim (I (before ++ trail m n s)) O := by
  induction n with
  | zero =>
    intro before s h
    rw [trail, List.append_nil]
    exact h
  | succ n ih =>
    intro before s h
    cases hs : m s with
    | halt outcome =>
      rw [run_halt hs]
      exact hhalt before s outcome h hs
    | next s' events =>
      rw [run_next hs, trail, hs, List.append_cons]
      exact ih _ (hstep before s s' events h hs)

/-- What every step keeps, a run keeps. -/
theorem run_invariant {I : σ → Prop} (hstep : ∀ s s' events, I s → m s = .next s' events → I s')
    (n : Nat) {s s' : σ} {events : List ε} (hs : I s) (hrun : run m n s = (events, .inl s')) : I s' := by
  have h := run_trail (I := fun _ => I) (O := fun _ => True) (fun _ => hstep) (fun _ _ _ _ _ => trivial) n
    [] hs
  rwa [hrun] at h

/-- Shorter runs show a part of the events, and have not ended. -/
theorem run_prefix {k n : Nat} {s s' : σ} (h : run m k s = (events, .inl s'))
    (hn : n ≤ k) : (run m n s).1 <+: events ∧ ∃ u, (run m n s).2 = .inl u := by
  cases hrun : run m n s with
  | mk shown stop =>
    cases stop with
    | inl u =>
      have hall := run_add hrun (k - n)
      rw [show n + (k - n) = k by omega, h] at hall
      exact ⟨⟨_, (congrArg Prod.fst hall).symm⟩, u, rfl⟩
    | inr outcome =>
      exfalso
      -- an ended run stays as it is
      have hstay : ∀ {j : Nat} {u : σ} {shown : List ε}, run m j u = (shown, .inr outcome) →
          ∀ extra, run m (j + extra) u = (shown, .inr outcome) := by
        intro j
        induction j with
        | zero => simp [run]
        | succ j ih =>
          intro u shown hj extra
          rw [show j + 1 + extra = j + extra + 1 by omega]
          cases hu : m u with
          | halt o =>
            rw [run_halt hu] at hj ⊢
            exact hj
          | next v first =>
            rw [run_next hu] at hj ⊢
            obtain ⟨rfl, hend⟩ := Prod.mk.inj hj
            rw [ih (Prod.ext rfl hend) extra]
      have hall := hstay hrun (k - n)
      rw [show n + (k - n) = k by omega, h] at hall
      simp at hall

end Run

/-- One step of the second machine for one or more of the first, or a silent step of the first
that makes the rank smaller. -/
structure Simulation (m : σ → Step σ ε ο) (m' : τ → Step τ ε ο) (R : σ → τ → Prop)
    (rank : σ → Nat) : Prop where
  step : ∀ s t, R s t →
    (∃ outcome, m s = .halt outcome ∧ m' t = .halt outcome) ∨
    ∃ k s' events, run m (k + 1) s = (events, .inl s') ∧
      ((events = [] ∧ R s' t ∧ rank s' < rank s) ∨ ∃ t', m' t = .next t' events ∧ R s' t')

namespace Simulation

variable {m : σ → Step σ ε ο} {m' : τ → Step τ ε ο} {R : σ → τ → Prop} {rank : σ → Nat}

/-- What the first machine shows, the second shows. -/
theorem forward (h : Simulation m m' R rank) (n : Nat) : ∀ s t, R s t →
    (∃ n', (run m n s).1 <+: (run m' n' t).1) ∧
      ∀ outcome, (run m n s).2 = .inr outcome →
        ∃ n', run m' n' t = ((run m n s).1, .inr outcome) := by
  induction n using Nat.strongRecOn with
  | ind n ih =>
    intro s t hR
    rcases h.step s t hR with ⟨outcome, hs, ht⟩ | ⟨k, s', events, hrun, hmatch⟩
    · cases n with
      | zero => exact ⟨⟨0, by simp [run]⟩, by simp [run]⟩
      | succ n =>
        rw [run_halt hs]
        refine ⟨⟨0, List.nil_prefix⟩, fun o ho => ⟨1, ?_⟩⟩
        rw [run_halt ht, Sum.inr.inj ho]
    · by_cases hn : n ≤ k
      · obtain ⟨hpre, u, hu⟩ := run_prefix hrun (show n ≤ k + 1 by omega)
        refine ⟨?_, fun o ho => by simp [hu] at ho⟩
        rcases hmatch with ⟨rfl, -, -⟩ | ⟨t', ht, -⟩
        · exact ⟨0, hpre.trans List.nil_prefix⟩
        · exact ⟨1, by simpa [run, ht] using hpre⟩
      · obtain ⟨rest, rfl⟩ : ∃ rest, n = k + 1 + rest := ⟨n - (k + 1), by omega⟩
        rw [run_add hrun]
        rcases hmatch with ⟨rfl, hR', -⟩ | ⟨t', ht, hR'⟩
        · simpa using ih rest (by omega) s' t hR'
        · obtain ⟨⟨n', hpre⟩, hend⟩ := ih rest (by omega) s' t' hR'
          refine ⟨⟨n' + 1, ?_⟩, fun o ho => ?_⟩
          · rw [run_next ht]
            exact (List.prefix_append_right_inj events).mpr hpre
          · obtain ⟨j, hj⟩ := hend o ho
            exact ⟨j + 1, by rw [run_next ht, hj]⟩

/-- What the second machine shows, the first shows. -/
theorem backward (h : Simulation m m' R rank) (n : Nat) : ∀ s t, R s t →
    (∃ n', (run m' n t).1 <+: (run m n' s).1) ∧
      ∀ outcome, (run m' n t).2 = .inr outcome →
        ∃ n', run m n' s = ((run m' n t).1, .inr outcome) := by
  induction n with
  | zero => exact fun s t _ => ⟨⟨0, List.nil_prefix⟩, by simp [run]⟩
  | succ n ih =>
    intro s
    -- the first machine may have silent steps to do before the two meet
    induction hr : rank s using Nat.strongRecOn generalizing s with
    | ind r ihr =>
      intro t hR
      subst hr
      rcases h.step s t hR with ⟨outcome, hs, ht⟩ | ⟨k, s', events, hrun, hmatch⟩
      · rw [run_halt ht]
        refine ⟨⟨0, List.nil_prefix⟩, fun o ho => ⟨1, ?_⟩⟩
        rw [run_halt hs, Sum.inr.inj ho]
      · rcases hmatch with ⟨rfl, hR', hlt⟩ | ⟨t', ht, hR'⟩
        · obtain ⟨⟨n', hpre⟩, hend⟩ := ihr _ hlt s' rfl t hR'
          refine ⟨⟨k + 1 + n', ?_⟩, fun o ho => ?_⟩
          · rw [run_add hrun]
            simpa using hpre
          · obtain ⟨j, hj⟩ := hend o ho
            exact ⟨k + 1 + j, by rw [run_add hrun, hj]; simp⟩
        · obtain ⟨⟨n', hpre⟩, hend⟩ := ih s' t' hR'
          rw [run_next ht]
          refine ⟨⟨k + 1 + n', ?_⟩, fun o ho => ?_⟩
          · rw [run_add hrun]
            exact (List.prefix_append_right_inj events).mpr hpre
          · obtain ⟨j, hj⟩ := hend o ho
            exact ⟨k + 1 + j, by rw [run_add hrun, hj]⟩

/-- Related states have the same behaviour. -/
theorem same (h : Simulation m m' R rank) {t : τ} (hR : R s t) :
    SameBehaviour m s m' t := by
  constructor
  · intro events
    constructor
    · rintro ⟨n, hn⟩
      obtain ⟨n', hn'⟩ := (h.forward n s t hR).1
      exact ⟨n', hn.trans hn'⟩
    · rintro ⟨n, hn⟩
      obtain ⟨n', hn'⟩ := (h.backward n s t hR).1
      exact ⟨n', hn.trans hn'⟩
  · intro events outcome
    constructor
    · rintro ⟨n, hn⟩
      obtain ⟨n', hn'⟩ := (h.forward n s t hR).2 outcome (by rw [hn])
      exact ⟨n', by rw [hn', hn]⟩
    · rintro ⟨n, hn⟩
      obtain ⟨n', hn'⟩ := (h.backward n s t hR).2 outcome (by rw [hn])
      exact ⟨n', by rw [hn', hn]⟩

end Simulation

theorem SameBehaviour.trans {υ : Type} {m : σ → Step σ ε ο} {m' : τ → Step τ ε ο}
    {m'' : υ → Step υ ε ο} {t : τ} {u : υ} (h : SameBehaviour m s m' t)
    (h' : SameBehaviour m' t m'' u) : SameBehaviour m s m'' u :=
  ⟨fun events => (h.emits events).trans (h'.emits events),
    fun events outcome => (h.halts events outcome).trans (h'.halts events outcome)⟩

end Machine

end Lib
