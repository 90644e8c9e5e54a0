import Kagari.Runtime.Wake

/-!
# No lost wakeup

`Due w p`: in a hub whose flag is set, that is not faulted and routes to `w`, the program `p` goes on to
call `w`, to start a turn or to record a fault. Every operation is `Lawful`: an action that raises the
flag, or changes the route without a turn to follow, leaves the rest of its operation due. So while the
flag is set, the installed route has been called since it was raised, or some thread is due to call it.
-/

namespace Kagari.Runtime

open Lib List

variable {W α β : Type}

/-! ## Obligations -/

def WakeAction.Discharges (w : W) : WakeAction W → Prop
  | .callback (.wake w') => w' = w
  | .storeDirty false | .swapFaulted => True
  | _ => False

/-- The answers of a hub whose flag is set, that is not faulted and routes to `w`. -/
def WakeAction.Expects (w : W) : (a : WakeAction W) → a.Answer → Prop
  | .loadDirty, r => r = true
  | .loadFaulted, r => r = false
  | .route, r => r = some w
  | _, _ => True

def Due (w : W) : WakeProg W α → Prop := Prog.Leads (WakeAction.Discharges w) (WakeAction.Expects w)

/-- What an action leaves to do. -/
def WakeAction.Leaves : (a : WakeAction W) → a.Answer → WakeProg W α → Prop
  | .swapDirty, r, rest => r = false → ∀ w, Due w rest
  | .storeDirty true, _, rest => ∀ w, Due w rest
  | .replaceExternal (some w), _, rest => Due w rest
  | .install w, r, rest => r.isSome → Due w rest
  | .replaceBorrowed _ w, r, rest => r = true → Due w rest
  | .takeBorrowed _, r, rest => r = true → ∀ w, Due w rest
  | _, _, _ => True

variable {p : WakeProg W α} {w : W} {a : WakeAction W} (runnable : Bool) (this : Nat)

theorem Due.bind (h : Due w p) (f : α → WakeProg W β) : Due w (p >>= f) :=
  Prog.Leads.bind h f

theorem WakeAction.Leaves.bind {r : a.Answer} (h : a.Leaves r p)
    (f : α → WakeProg W β) : a.Leaves r (p >>= f) := by
  unfold WakeAction.Leaves at h ⊢
  split <;> grind -ring -linarith [Due.bind]

def Lawful : WakeProg W α → Prop := Prog.Always (· = .swapFaulted) WakeAction.Leaves

theorem Lawful.bind {f : α → WakeProg W β} (hp : Lawful p) (hf : ∀ value, Lawful (f value)) :
    Lawful (p >>= f) := by
  induction hp with
  | pure value => exact hf value
  | last h => exact .last h
  | act hpost _ ih => exact .act (fun r => (hpost r).bind f) ih

namespace WakeHub

variable {w : W} {c : HostCallback W} {firstFault : WakeProg W Unit} {f : Bool → WakeProg W α}

theorem lawful_perform {f : a.Answer → WakeProg W α} (hlvs : ∀ r, a.Leaves r (f r))
    (h : ∀ r, Lawful (f r)) : Lawful (perform a >>= f) :=
  .act hlvs h

theorem due_containCallback (h : Due w (f true)) : Due w (containCallback c firstFault >>= f) := by
  refine .later fun completed _ => ?_
  cases completed with
  | true => exact h
  | false => exact .now trivial

theorem lawful_containCallback (h : Lawful (f true)) : Lawful (containCallback c firstFault >>= f) := by
  refine .act (fun _ => by simp only [WakeAction.Leaves]) fun completed => ?_
  cases completed with
  | true => exact h
  | false => exact .last rfl

theorem due_notify : Due w (notify : WakeProg W Unit) := by
  refine .later fun wake hwake => ?_
  obtain rfl : wake = some w := hwake
  exact .now rfl

theorem lawful_notify : Lawful (notify : WakeProg W Unit) := by
  refine .act (fun _ => trivial) fun wake => ?_
  cases wake with
  | none => exact .pure ()
  | some wake => exact lawful_containCallback (lawful_containCallback (.pure ()))

theorem due_replay : Due w (replay : WakeProg W Unit) := by
  refine .later fun dirty hdrt => ?_
  obtain rfl : dirty = true := hdrt
  exact due_notify

theorem lawful_replay : Lawful (replay : WakeProg W Unit) := by
  refine .act (fun _ => trivial) fun dirty => ?_
  cases dirty with
  | true => exact lawful_notify
  | false => exact .pure ()

theorem lawful_markReady : Lawful (markReady : WakeProg W Unit) := by
  refine .act (fun dirty hdrt w => ?_) fun dirty => ?_
  · subst hdrt
    exact due_notify
  · cases dirty with
    | true => exact .pure ()
    | false => exact lawful_notify

theorem lawful_finishTurn : Lawful (finishTurn runnable : WakeProg W Unit) := by
  cases runnable with
  | true => exact .act (fun _ _ => due_replay) fun _ => lawful_replay
  | false => exact lawful_replay

theorem due_check (h : Due w (f true)) : Due w (check >>= f) := by
  refine .later fun faulted hflt => ?_
  obtain rfl : faulted = false := hflt
  exact h

theorem lawful_check (h : ∀ ok, Lawful (f ok)) : Lawful (check >>= f) :=
  .act (fun _ => trivial) fun faulted => h (!faulted)

theorem lawful_endSchedulerTurn :
    Lawful (endSchedulerTurn runnable : WakeProg W Unit) :=
  lawful_containCallback (lawful_finishTurn runnable)

/-- A route that was just registered is followed by what the caller does with the answer. -/
theorem due_registered (h : Due w (f true)) :
    Due w (contain c >>= fun _ => contain c >>= fun _ => check >>= f) :=
  due_containCallback (due_containCallback (due_check h))

theorem lawful_registered (h : ∀ ok, Lawful (f ok)) :
    Lawful (contain c >>= fun _ => contain c >>= fun _ => check >>= f) :=
  lawful_containCallback (lawful_containCallback (lawful_check h))

theorem lawful_registerExternal (waker : W) (hdue : Due waker (f true)) (h : ∀ ok, Lawful (f ok)) :
    Lawful (registerExternal waker >>= f) := by
  simp only [registerExternal, contain, Prog.bind_bind]
  refine lawful_containCallback (.act (fun _ => ?_) fun _ => ?_)
  · exact due_registered hdue
  · exact lawful_registered h

theorem lawful_update (registration : DriverRegistration) (waker : W)
    (hdue : Due waker (f true)) (h : ∀ ok, Lawful (f ok)) :
    Lawful (update this registration waker >>= f) := by
  unfold update
  split
  · exact h false
  simp only [Prog.bind_bind]
  refine lawful_containCallback (lawful_check fun ok => ?_)
  cases ok with
  | false =>
    simp only [Bool.not_false, if_true, Prog.bind_bind]
    exact lawful_containCallback (h false)
  | true =>
    simp only [Bool.not_true, Bool.false_eq_true, if_false, Prog.bind_bind]
    refine lawful_perform (fun replaced hrepd => ?_) fun replaced => ?_
    · obtain rfl : replaced = true := hrepd
      simp only [Bool.not_true, Bool.false_eq_true, if_false, Prog.bind_bind]
      exact due_registered hdue
    · cases replaced with
      | false => exact lawful_containCallback (h false)
      | true =>
        simp only [Bool.not_true, Bool.false_eq_true, if_false, Prog.bind_bind]
        exact lawful_registered h

theorem lawful_borrow (waker : W) : Lawful (borrow waker) := by
  refine lawful_containCallback (lawful_check fun ok => ?_)
  cases ok with
  | false => exact lawful_containCallback (.pure none)
  | true =>
    refine lawful_perform (fun serial hser => ?_) fun serial => ?_
    · obtain ⟨serial, rfl⟩ := Option.isSome_iff_exists.mp hser
      exact due_containCallback (due_replay.bind _)
    · cases serial with
      | none => exact lawful_containCallback (.pure none)
      | some serial => exact lawful_containCallback (lawful_replay.bind fun _ => .pure _)

theorem lawful_dropRegistration (registration : DriverRegistration) :
    Lawful (dropRegistration this registration : WakeProg W Unit) := by
  unfold dropRegistration
  split
  · exact .pure ()
  refine .act (fun taken htaken w => ?_) fun taken => ?_
  · subst htaken
    exact due_containCallback due_replay
  · cases taken with
    | false => exact .pure ()
    | true => exact lawful_containCallback lawful_replay

theorem lawful_close : Lawful (close : WakeProg W Unit) :=
  .act (fun _ => trivial) fun _ => lawful_containCallback (lawful_containCallback (.pure ()))

theorem lawful_beginSchedulerTurn (driver : Option DriverRegistration) (waker : W)
    (runnable : Bool) : Lawful (beginSchedulerTurn this driver waker runnable) := by
  refine lawful_check fun ok => ?_
  cases ok with
  | false => exact .pure ()
  | true =>
    have hdue : Due waker (beginTurn : WakeProg W Unit) := .now trivial
    have hrest : ∀ ok : Bool, Lawful (if ok then beginTurn else endSchedulerTurn runnable : WakeProg W Unit) := by
      intro ok
      cases ok with
      | true => exact .act (fun _ => trivial) fun _ => .pure ()
      | false => exact lawful_endSchedulerTurn runnable
    cases driver with
    | none => exact lawful_registerExternal waker hdue hrest
    | some registration => exact lawful_update this registration waker hdue hrest

end WakeHub

theorem WakeOperation.lawful (operation : WakeOperation W) : Lawful (operation.code this) := by
  cases operation with
  | markReady => exact WakeHub.lawful_markReady
  | contain => exact WakeHub.lawful_containCallback (.pure ())
  | borrow waker => exact (WakeHub.lawful_borrow waker).bind fun _ => .pure ()
  | dropRegistration registration => exact WakeHub.lawful_dropRegistration this registration
  | beginSchedulerTurn driver waker runnable =>
    exact WakeHub.lawful_beginSchedulerTurn this driver waker runnable
  | endSchedulerTurn runnable => exact WakeHub.lawful_endSchedulerTurn runnable
  | close => exact WakeHub.lawful_close

/-! ## Logs -/

namespace WakeEvent

/-- A mark that no turn has started after. -/
def Outstanding : List (WakeEvent W) → Prop
  | [] | .began :: _ => False
  | .marked :: _ => True
  | _ :: log => Outstanding log

/-- The flag was raised, by a mark or by ready work or a fault, and no turn has started since. -/
def Raised : List (WakeEvent W) → Prop
  | [] | .began :: _ => False
  | .marked :: _ | .raised :: _ => True
  | _ :: log => Raised log

/-- The waker was called after the flag was raised, and no turn has started since. -/
def Called (w : W) : List (WakeEvent W) → Prop
  | [] | .began :: _ => False
  | .woke w' :: log => w' = w ∧ Raised log ∨ Called w log
  | _ :: log => Called w log

theorem Outstanding.raised {log : List (WakeEvent W)} (h : Outstanding log) : Raised log := by
  induction log with
  | nil => exact h
  | cons event log ih =>
    cases event with
    | marked | raised => trivial
    | began => exact h
    | woke _ | issued _ => exact ih h

end WakeEvent

open WakeEvent

section Effect

variable {w : W} {completes : Bool} (a : WakeAction W) {s : WakeState W}

/-- Only the start of a turn lowers the flag. -/
theorem WakeAction.dirty_iff_raised (h : s.dirty = true ↔ Raised s.log) :
    (a.exec completes s).1.dirty = true ↔ Raised (a.exec completes s).1.log := by
  unfold exec
  split <;> simp_all [Raised] <;> grind [Raised]

theorem WakeAction.called (h : Called w s.log) (hdrt : (a.exec completes s).1.dirty = true) :
    Called w (a.exec completes s).1.log := by
  unfold exec at hdrt ⊢
  split <;> simp_all [Called] <;> grind [Called]

/-- An action that discharges a notification has called the waker, unless it started a turn or
recorded a fault. -/
theorem WakeAction.Discharges.called {a : WakeAction W} (h : a.Discharges w) (hraised : Raised s.log)
    (hdrt : (a.exec completes s).1.dirty = true) (hfault : (a.exec completes s).1.faulted = false) :
    Called w (a.exec completes s).1.log := by
  unfold Discharges at h
  split at h
  · subst h
    exact .inl ⟨rfl, hraised⟩
  · cases hdrt
  · cases hfault
  · cases h

theorem WakeAction.expects (hdrt : s.dirty = true) (hrte : s.toWakeHub.route = some w)
    (hfault : s.faulted = false) : a.Expects w (a.exec completes s).2 := by
  unfold Expects
  split
  · exact hdrt
  · exact hfault
  · exact hrte
  · trivial

/-- Where the flag is set and a route installed after an action, they were before it, or the action
leaves the notification to its own thread. -/
theorem WakeAction.leaves (hdrt : (a.exec completes s).1.dirty = true)
    (hrte : (a.exec completes s).1.toWakeHub.route = some w)
    (hfault : (a.exec completes s).1.faulted = false) :
    (s.dirty = true ∧ s.toWakeHub.route = some w ∧ s.faulted = false) ∨
      ∀ rest : WakeProg W α, a.Leaves (a.exec completes s).2 rest → Due w rest := by
  cases a with
  | swapDirty =>
    cases hs : s.dirty with
    | true => exact .inl ⟨rfl, hrte, hfault⟩
    | false => exact .inr fun rest h => h hs w
  | storeDirty value =>
    cases value with
    | true => exact .inr fun rest h => h w
    | false => cases hdrt
  | loadDirty => exact .inl ⟨hdrt, hrte, hfault⟩
  | swapFaulted => cases hfault
  | loadFaulted => exact .inl ⟨hdrt, hrte, hfault⟩
  | callback c => cases c <;> exact .inl ⟨hdrt, hrte, hfault⟩
  | route => exact .inl ⟨hdrt, hrte, hfault⟩
  | replaceExternal registered =>
    cases hclos : s.closed with
    | true =>
      simp only [exec, hclos, if_true] at hdrt hrte hfault
      exact .inl ⟨hdrt, hrte, hfault⟩
    | false =>
      simp only [exec, hclos, Bool.false_eq_true, if_false] at hdrt hrte hfault
      cases hbord : s.borrowed with
      | some current =>
        refine .inl ⟨hdrt, ?_, hfault⟩
        simpa [WakeHub.route, hclos, hbord] using hrte
      | none =>
        obtain rfl : registered = some w := by simpa [WakeHub.route, hclos, hbord] using hrte
        exact .inr fun rest h => h
  | install waker =>
    by_cases hrefd : s.closed || s.borrowed.isSome || serialLimit ≤ s.serial + 1
    · simp only [exec, hrefd, if_true] at hdrt hrte hfault
      exact .inl ⟨hdrt, hrte, hfault⟩
    · have hopen : s.closed = false := by simp_all
      simp only [exec, hrefd] at hrte
      obtain rfl : waker = w := by simpa [WakeHub.route, hopen] using hrte
      refine .inr fun rest h => h ?_
      simp [exec, hrefd]
  | replaceBorrowed serial waker =>
    cases hbord : s.borrowed with
    | none =>
      simp only [exec, hbord] at hdrt hrte hfault
      exact .inl ⟨hdrt, hrte, hfault⟩
    | some current =>
      by_cases hser : current.1 = serial
      · simp only [exec, hbord, hser, not_true, if_false, ne_eq] at hrte
        have hopen : s.closed = false := by
          cases hc : s.closed <;> simp_all [WakeHub.route]
        obtain rfl : waker = w := by simpa [WakeHub.route, hopen] using hrte
        refine .inr fun rest h => h ?_
        simp [exec, hbord, hser]
      · simp only [exec, hbord, hser, not_false_eq_true, if_true, ne_eq] at hdrt hrte hfault
        exact .inl ⟨hdrt, hrte, hfault⟩
  | takeBorrowed serial =>
    by_cases hother : s.borrowed.all (·.1 ≠ serial)
    · simp only [exec, hother, if_true] at hdrt hrte hfault
      exact .inl ⟨hdrt, hrte, hfault⟩
    · refine .inr fun rest h => h ?_ w
      simp only [exec, hother]
      rfl
  | close => simp [exec, WakeHub.route] at hrte

end Effect

/-! ## Runs -/

/-- Unless the hub is faulted, what a set flag promises: the installed route has been called since it
was raised, or a thread is due to call it. -/
structure Served (c : WakeThreads W) : Prop where
  lawful : ∀ p ∈ c.threads, Lawful p
  called : c.state.dirty = true → ∀ w, c.state.toWakeHub.route = some w →
    Called w c.state.log ∨ ∃ p ∈ c.threads, Due w p

def WakeInvariant (c : WakeThreads W) : Prop :=
  (c.state.dirty = true ↔ Raised c.state.log) ∧ (c.state.faulted = false → Served c)

variable {s : WakeState W}

theorem WakeInvariant.start {this : Nat} {threads : List (WakeProg W Unit)}
    (operation : WakeOperation W) (h : WakeInvariant ⟨s, threads⟩) :
    WakeInvariant ⟨s, threads ++ [operation.code this]⟩ := by
  refine ⟨h.1, fun hfault => ?_⟩
  obtain ⟨hlaw, hcalled⟩ := h.2 hfault
  constructor
  · intro p hp
    rcases mem_append.mp hp with hp | hp
    · exact hlaw p hp
    · rw [mem_singleton.mp hp]
      exact operation.lawful this
  · intro hdrt w hrte
    rcases hcalled hdrt w hrte with hc | ⟨p, hp, hdue⟩
    · exact .inl hc
    · exact .inr ⟨p, mem_append_left _ hp, hdue⟩

theorem Lawful.step {a : WakeAction W} {next : a.Answer → WakeProg W α} (h : Lawful (.act a next))
    (ha : a ≠ .swapFaulted) (r : a.Answer) : a.Leaves r (next r) ∧ Lawful (next r) := by
  cases h with
  | last hlast => exact absurd hlast ha
  | act hpost hrest => exact ⟨hpost r, hrest r⟩

/-- Nothing repairs a fault. -/
theorem WakeAction.not_faulted (a : WakeAction W) {completes : Bool}
    (h : (a.exec completes s).1.faulted = false) : a ≠ .swapFaulted ∧ s.faulted = false := by
  constructor
  · rintro rfl
    cases h
  · unfold exec at h
    split at h <;> grind

theorem WakeInvariant.step {s : WakeState W} {threads : List (WakeProg W Unit)} {i : Nat} {completes : Bool}
    {a : WakeAction W} {next : a.Answer → WakeProg W Unit} (hi : threads[i]? = some (.act a next))
    (h : WakeInvariant ⟨s, threads⟩) :
    WakeInvariant ⟨(a.exec completes s).1, threads.set i (next (a.exec completes s).2)⟩ := by
  refine ⟨a.dirty_iff_raised h.1, fun hfault => ?_⟩
  obtain ⟨hnot, hfault'⟩ := a.not_faulted hfault
  obtain ⟨hlaw, hcalled⟩ := h.2 hfault'
  have hmem : Prog.act a next ∈ threads := List.mem_of_getElem? hi
  have hlt : i < threads.length := (List.getElem?_eq_some_iff.mp hi).1
  obtain ⟨hlvs, hnext⟩ := (hlaw _ hmem).step hnot (a.exec completes s).2
  have hown : next (a.exec completes s).2 ∈ threads.set i (next (a.exec completes s).2) :=
    List.mem_set hlt _
  constructor
  · intro p hp
    rcases List.mem_or_eq_of_mem_set hp with hp | rfl
    · exact hlaw p hp
    · exact hnext
  · intro hdrt w hrte
    rcases a.leaves hdrt hrte hfault with ⟨hd, hr, hf⟩ | hdue
    · rcases hcalled hd w hr with hc | ⟨p, hp, hdue⟩
      · exact .inl (a.called hc hdrt)
      · obtain ⟨j, hj, hpj⟩ := List.getElem_of_mem hp
        by_cases hij : i = j
        · subst hij
          obtain rfl : Prog.act a next = p := by
            rw [List.getElem?_eq_getElem hj, hpj] at hi
            exact (Option.some.inj hi).symm
          -- the due thread takes its action: it calls the waker, or is due still
          cases hdue with
          | now hgoal => exact .inl (hgoal.called (h.1.mp hd) hdrt hfault)
          | later hlat => exact .inr ⟨_, hown, hlat _ (a.expects hd hr hf)⟩
        · refine .inr ⟨p, ?_, hdue⟩
          rw [← hpj, List.mem_iff_getElem]
          exact ⟨j, by simpa using hj, by simp [List.getElem_set_of_ne hij]⟩
    · exact .inr ⟨_, hown, hdue _ hlvs⟩

/-- The serials of the registrations so far, the newest first. -/
def issuedSerials (log : List (WakeEvent W)) : List Nat :=
  log.filterMap fun
    | .issued serial => some serial
    | _ => none

/-- Registrations are numbered upwards. -/
def Numbered (s : WakeState W) : Prop :=
  (issuedSerials s.log).Pairwise (· > ·) ∧ ∀ n ∈ issuedSerials s.log, n ≤ s.serial

theorem Numbered.exec (h : Numbered s) (a : WakeAction W) (completes : Bool) :
    Numbered (a.exec completes s).1 := by
  obtain ⟨hord, hbnd⟩ := h
  cases a with
  | install waker =>
    by_cases hrefd : s.closed || s.borrowed.isSome || WakeAction.serialLimit ≤ s.serial + 1
    · simp only [WakeAction.exec, hrefd, if_true]
      exact ⟨hord, hbnd⟩
    · simp only [WakeAction.exec, hrefd]
      constructor
      · refine pairwise_cons.mpr ⟨fun n hn => ?_, hord⟩
        exact Nat.lt_succ_of_le (hbnd n hn)
      · intro n hn
        rcases mem_cons.mp hn with rfl | hn
        · exact Nat.le_refl _
        · exact Nat.le_succ_of_le (hbnd n hn)
  | storeDirty value => cases value <;> exact ⟨hord, hbnd⟩
  | callback c => cases c <;> exact ⟨hord, hbnd⟩
  | replaceExternal registered =>
    simp only [WakeAction.exec]
    split <;> exact ⟨hord, hbnd⟩
  | replaceBorrowed serial waker =>
    simp only [WakeAction.exec]
    split
    · exact ⟨hord, hbnd⟩
    · split <;> exact ⟨hord, hbnd⟩
  | takeBorrowed serial =>
    simp only [WakeAction.exec]
    split <;> exact ⟨hord, hbnd⟩
  | _ => exact ⟨hord, hbnd⟩

/-- The program goes on to call the waker. -/
def Notifies (w : W) : WakeProg W α → Prop :=
  Prog.Leads (fun a => a = .callback (.wake w)) (WakeAction.Expects w)

theorem Notifies.answered {next : a.Answer → WakeProg W α}
    (h : Notifies w (.act a next)) (ha : a ≠ .callback (.wake w)) {r : a.Answer} (hr : a.Expects w r) :
    Notifies w (next r) := by
  cases h with
  | now hgoal => exact absurd hgoal ha
  | later hlat => exact hlat r hr

end Kagari.Runtime
