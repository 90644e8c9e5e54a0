import Kagari.Lib.SortedMap
import Kagari.Runtime.Dependencies

/-!
# The wait-for graph stays acyclic

`checkEdge` finds a way back exactly when there is one: fewer nodes can be reached than the traversal
may visit. So every operation keeps the graph acyclic, and reports a cycle exactly when its edge would
close one. Serials only grow, so a lease whose registration is gone stays stale.
-/

namespace Kagari.Runtime

open Lib Relation List

variable {T S W : Type} [DecidableEq T] [DecidableEq S]

variable {b : Node T S} {children : S × S} {error : DependencyError} {lease : WaitLease S}
  {reserved : Bool} {state' : Waits T S W} {target task : T} {wake : W}

namespace Waits

variable {state : Waits T S W}

/-- One edge of the graph: a task leads to its execution, an execution to the task it waits for, and the
execution of a group to both of its children. -/
inductive Leads (state : Waits T S W) : Node T S → Node T S → Prop
  | task {task : T} {session : S} : state.sessions.lookup task = some session →
      Leads state (.task task) (.session session)
  | wait {session : S} {edge : Wait T W} : state.edges.lookup session = some edge →
      Leads state (.session session) (.task edge.target)
  | left {session : S} {children : S × S} : state.groups.lookup session = some children →
      Leads state (.session session) (.session children.1)
  | right {session : S} {children : S × S} : state.groups.lookup session = some children →
      Leads state (.session session) (.session children.2)

theorem leads_task :
    state.Leads (.task task) b ↔ ∃ session, state.sessions.lookup task = some session ∧
      b = .session session := by
  constructor
  · rintro ⟨h⟩
    exact ⟨_, h, rfl⟩
  · rintro ⟨session, h, rfl⟩
    exact .task h

variable {session : S}

theorem leads_session :
    state.Leads (.session session) b ↔
      (∃ edge, state.edges.lookup session = some edge ∧ b = .task edge.target) ∨
      ∃ children, state.groups.lookup session = some children ∧
        (b = .session children.1 ∨ b = .session children.2) := by
  constructor
  · intro h
    cases h with
    | wait h => exact .inl ⟨_, h, rfl⟩
    | left h => exact .inr ⟨_, h, .inl rfl⟩
    | right h => exact .inr ⟨_, h, .inr rfl⟩
  · rintro (⟨edge, h, rfl⟩ | ⟨children, h, rfl | rfl⟩)
    · exact .wait h
    · exact .left h
    · exact .right h

/-- What the traversal pushes are the edges of the node. -/
theorem edge_next : Edge state.next = state.Leads := by
  funext a b
  refine propext ?_
  unfold Edge next
  cases a with
  | task task =>
    rw [leads_task, Option.mem_toList, Option.map_eq_some_iff]
    exact exists_congr fun session => and_congr_right fun _ => eq_comm
  | session session =>
    rw [leads_session, mem_append, Option.mem_toList, Option.map_eq_some_iff]
    refine or_congr (exists_congr fun edge => and_congr_right fun _ => eq_comm) ?_
    cases hlook : state.groups.lookup session with
    | none => simp
    | some children => simp

/-! ## The traversal -/

/-- The ends of all edges. -/
def ends (state : Waits T S W) : List (Node T S) :=
  state.sessions.entries.map (fun entry => .session entry.2) ++
    state.edges.entries.map (fun entry => .task entry.2.target) ++
    state.groups.entries.flatMap fun entry => [.session entry.2.1, .session entry.2.2]

theorem mem_ends {a b : Node T S} (h : state.Leads a b) : b ∈ state.ends := by
  unfold ends
  cases a with
  | task task =>
    obtain ⟨session, hlook, rfl⟩ := leads_task.mp h
    refine mem_append_left _ (mem_append_left _ ?_)
    exact mem_map.mpr ⟨⟨task, session⟩, AList.mem_lookup_iff.mp hlook, rfl⟩
  | session session =>
    rcases leads_session.mp h with ⟨edge, hlook, rfl⟩ | ⟨children, hlook, hb⟩
    · refine mem_append_left _ (mem_append_right _ ?_)
      exact mem_map.mpr ⟨⟨session, edge⟩, AList.mem_lookup_iff.mp hlook, rfl⟩
    · refine mem_append_right _ (mem_flatMap.mpr ?_)
      exact ⟨⟨session, children⟩, AList.mem_lookup_iff.mp hlook, by simpa using hb⟩

omit [DecidableEq T] [DecidableEq S] in
theorem length_ends : state.ends.length = state.sessions.entries.length +
    state.edges.entries.length + state.groups.entries.length * 2 := by
  unfold ends
  rw [length_append, length_append, length_map, length_map, length_flatMap]
  simp

theorem length_next (a : Node T S) : (state.next a).length ≤ 3 := by
  unfold next
  cases a with
  | task task =>
    dsimp only
    cases hsess : state.sessions.lookup task <;> simp
  | session session =>
    rw [length_append]
    cases hedge : state.edges.lookup session <;> cases hgrp : state.groups.lookup session <;> simp

/-- With memory for it, the traversal says whether there is a way back, and nothing else. -/
theorem checkEdge_spec (state : Waits T S W) (source target : Node T S) :
    (state.checkEdge true source target = .error .waitCycle ∧
      ReflTransGen state.Leads target source) ∨
    (state.checkEdge true source target = .ok () ∧
      ¬ ReflTransGen state.Leads target source) := by
  have htgts : ∀ a, ReflTransGen (Edge state.next) target a → a ∈ target :: state.ends := by
    intro a ha
    rcases ReflTransGen.cases_tail ha with rfl | ⟨b, -, hedge⟩
    · exact mem_cons_self
    · rw [edge_next] at hedge
      exact mem_cons_of_mem _ (mem_ends hedge)
  have hbnd : (target :: state.ends).length < state.bound := by
    rw [length_cons, length_ends]
    unfold bound
    omega
  have hst : Searched state.next source target [target] [] := by
    refine ⟨.inr mem_cons_self, ?_, by simp, by simp, nodup_nil⟩
    rintro a (ha | ha)
    · cases ha
    · rw [mem_singleton.mp ha]
  obtain ⟨found, hsrch, hfnd⟩ := search_iff htgts hbnd length_next (state.bound * 3 + 1)
    hst (by simp [turns]; omega)
  rw [edge_next] at hfnd
  unfold checkEdge
  rw [hsrch]
  cases found with
  | true => exact .inl ⟨rfl, hfnd.mp rfl⟩
  | false => exact .inr ⟨rfl, fun h => nomatch hfnd.mpr h⟩

theorem checkEdge_ok {source target : Node T S}
    (h : state.checkEdge reserved source target = .ok ()) :
    ¬ ReflTransGen state.Leads target source := by
  cases reserved with
  | false => cases h
  | true =>
    rcases checkEdge_spec state source target with ⟨hcyc, -⟩ | ⟨-, hrch⟩
    · rw [hcyc] at h
      cases h
    · exact hrch

theorem checkEdge_cycle {source target : Node T S}
    (h : state.checkEdge reserved source target = .error .waitCycle) :
    ReflTransGen state.Leads target source := by
  cases reserved with
  | false => cases h
  | true =>
    rcases checkEdge_spec state source target with ⟨-, hrch⟩ | ⟨hok, -⟩
    · exact hrch
    · rw [hok] at h
      cases h

/-! ## What is reported

`Reports granted closes result`: a cycle is reported only when there is one, always when there is one
and the call gets as far as its traversal, and the traversal itself never gives up. -/

structure Reports {α : Type} (granted closes : Prop) (result : Except DependencyError α) : Prop where
  cycle : result = .error .waitCycle → closes
  found : granted → closes → result = .error .waitCycle
  bounded : granted → result ≠ .error (.resourceLimit "dependency traversal")

section Reports

variable {α β : Type} {granted closes : Prop}

variable {result : Except DependencyError α}

theorem Reports.mono {granted' closes' : Prop}
    (h : Reports granted closes result) (hgrtd : granted' → granted)
    (hcloses : closes ↔ closes') : Reports granted' closes' result :=
  ⟨fun hcyc => hcloses.mp (h.cycle hcyc),
    fun hg hc => h.found (hgrtd hg) (hcloses.mpr hc), fun hg => h.bounded (hgrtd hg)⟩

/-- A check made before the traversal. -/
theorem Reports.guard {rejected : Prop} [Decidable rejected]
    (h : Reports granted closes result)
    (hcyc : error ≠ .waitCycle) :
    Reports (granted ∧ ¬ rejected) closes (if rejected then .error error else result) := by
  by_cases hrej : rejected
  · rw [if_pos hrej]
    refine ⟨fun heq => absurd (Except.error.inj heq) hcyc, fun hg => absurd hrej hg.2,
      fun hg => absurd hrej hg.2⟩
  · rw [if_neg hrej]
    exact h.mono (fun hg => hg.1) Iff.rfl

theorem Reports.ok {a : α} : Reports granted False (.ok a) :=
  ⟨fun hcyc => (nomatch hcyc), fun _ hfalse => hfalse.elim, fun _ hbnd => (nomatch hbnd)⟩

/-- A check made after the traversal. -/
theorem Reports.limit {refused : Prop} [Decidable refused]
    (h : Reports granted False result)
    (hcyc : error ≠ .waitCycle) (hbnd : error ≠ .resourceLimit "dependency traversal") :
    Reports granted False (if refused then .error error else result) := by
  by_cases hrefd : refused
  · rw [if_pos hrefd]
    exact ⟨fun heq => absurd (Except.error.inj heq) hcyc, fun _ hfalse => hfalse.elim,
      fun _ heq => absurd (Except.error.inj heq) hbnd⟩
  · rw [if_neg hrefd]
    exact h

/-- One edge is checked, then the call goes on. -/
theorem Reports.check {source target : Node T S}
    {rest : Unit → Except DependencyError α} (hrsvd : granted → reserved = true)
    (hrest : Reports granted closes (rest ())) :
    Reports granted (ReflTransGen state.Leads target source ∨ closes)
      (state.checkEdge reserved source target >>= rest) := by
  refine ⟨fun hcyc => ?_, fun hg hcloses => ?_, fun hg hbnd => ?_⟩
  · cases hchk : state.checkEdge reserved source target with
    | error error =>
      rw [hchk] at hcyc
      refine .inl (checkEdge_cycle (hchk.trans ?_))
      exact congrArg Except.error (Except.error.inj hcyc)
    | ok =>
      rw [hchk] at hcyc
      exact .inr (hrest.cycle hcyc)
  · obtain rfl := hrsvd hg
    rcases checkEdge_spec state source target with ⟨hchk, -⟩ | ⟨hchk, hrch⟩
    · rw [hchk]
      rfl
    · rw [hchk]
      exact hrest.found hg (hcloses.resolve_left hrch)
  · obtain rfl := hrsvd hg
    rcases checkEdge_spec state source target with ⟨hchk, -⟩ | ⟨hchk, -⟩
    · rw [hchk] at hbnd
      cases hbnd
    · rw [hchk] at hbnd
      exact hrest.bounded hg hbnd

end Reports

/-! ## The operations -/

/-- The graph with edges out of `source` added. -/
def LeadsWith (state : Waits T S W) (source : Node T S) (targets : List (Node T S))
    (a b : Node T S) : Prop :=
  state.Leads a b ∨ a = source ∧ b ∈ targets

theorem leadsWith_acyclic {source : Node T S} {targets : List (Node T S)}
    (h : Acyclic state.Leads) :
    Acyclic (state.LeadsWith source targets) ↔
      ∀ target ∈ targets, ¬ ReflTransGen state.Leads target source := by
  constructor
  · intro hacyc target htgt hback
    exact add_closes (fun _ _ => .inl) (.inr ⟨rfl, htgt⟩) hback hacyc
  · exact h.add fun _ _ => id

variable {memory : Nat → Bool}

theorem attach_reports (h : Acyclic state.Leads) (task : T) (session : S) :
    Reports ((∀ i, memory i = true) ∧ task ∉ state.sessions)
      (¬ Acyclic (state.LeadsWith (.task task) [.session session]))
      (state.attach memory task session) := by
  unfold attach
  refine Reports.guard ?_ (by decide)
  refine (Reports.check (fun hg => hg 0) (Reports.ok.limit (by decide) (by decide))).mono id ?_
  rw [leadsWith_acyclic h]
  simp

variable {limits : AsyncLimits}

theorem attachGroup_reports (h : Acyclic state.Leads)
    (parent : S) (children : S × S) :
    Reports (((∀ i, memory i = true) ∧ ¬ limits.maxGroups ≤ state.groups.entries.length) ∧
        ¬ (parent ∈ state.groups ∨ parent ∈ state.edges))
      (¬ Acyclic (state.LeadsWith (.session parent) [.session children.1, .session children.2]))
      (state.attachGroup memory limits parent children) := by
  unfold attachGroup
  refine Reports.guard (Reports.guard ?_ (by decide)) (by decide)
  refine (Reports.check (fun hg => hg 0)
    (Reports.check (fun hg => hg 1) (Reports.ok.limit (by decide) (by decide)))).mono id ?_
  rw [leadsWith_acyclic h]
  simp only [forall_mem_cons, not_mem_nil, false_implies, implies_true, and_true, or_false]
  tauto

theorem register_reports (h : Acyclic state.Leads)
    (session : S) (target : T) (wake : W) :
    Reports ((∀ i, memory i = true) ∧ ¬ (session ∈ state.edges ∨ session ∈ state.groups))
      (¬ Acyclic (state.LeadsWith (.session session) [.task target]))
      (state.register memory limits session target wake) := by
  unfold register
  refine Reports.guard ?_ (by decide)
  refine (Reports.check (fun hg => hg 0) (((Reports.ok.limit (by decide) (by decide)).limit
    (by decide) (by decide)).limit (by decide) (by decide))).mono id ?_
  rw [leadsWith_acyclic h]
  simp

theorem attach_ok
    (h : state.attach memory task session = .ok state') :
    ¬ ReflTransGen state.Leads (.session session) (.task task) ∧
      state' = { state with sessions := state.sessions.insert task session } := by
  unfold attach at h
  split at h
  · cases h
  · obtain ⟨⟨⟩, hchk, hrest⟩ := bind_ok.mp h
    refine ⟨checkEdge_ok hchk, ?_⟩
    split at hrest
    · cases hrest
    · exact (Except.ok.inj hrest).symm

theorem attachGroup_ok {parent : S}
    (h : state.attachGroup memory limits parent children = .ok state') :
    parent ∉ state.edges ∧ ¬ ReflTransGen state.Leads (.session children.1) (.session parent) ∧
      ¬ ReflTransGen state.Leads (.session children.2) (.session parent) ∧
      state' = { state with groups := state.groups.insert parent children } := by
  unfold attachGroup at h
  split at h
  · cases h
  · rename_i hfree
    split at h
    · cases h
    · obtain ⟨⟨⟩, hfst, hrest⟩ := bind_ok.mp h
      obtain ⟨⟨⟩, hsnd, hrest⟩ := bind_ok.mp hrest
      refine ⟨fun hmem => hfree (.inr hmem), checkEdge_ok hfst, checkEdge_ok hsnd, ?_⟩
      split at hrest
      · cases hrest
      · exact (Except.ok.inj hrest).symm

theorem register_ok
    (h : state.register memory limits session target wake = .ok (state', lease)) :
    session ∉ state.groups ∧ ¬ ReflTransGen state.Leads (.task target) (.session session) ∧
      state' = { state with
        serial := state.serial + 1
        edges := state.edges.insert session ⟨target, state.serial + 1, wake⟩ } ∧
      lease = ⟨session, state.serial + 1⟩ := by
  unfold register at h
  split at h
  · cases h
  · rename_i hfree
    obtain ⟨⟨⟩, hchk, hrest⟩ := bind_ok.mp h
    refine ⟨fun hmem => hfree (.inr hmem), checkEdge_ok hchk, ?_⟩
    split at hrest
    · cases hrest
    · split at hrest
      · cases hrest
      · split at hrest
        · cases hrest
        · obtain ⟨hstate, hlse⟩ := Prod.mk.inj (Except.ok.inj hrest)
          exact ⟨hstate.symm, hlse.symm⟩

/-! ## The invariant -/

/-- No way leads back, an execution waits for a task or for a group but not both, and every
registration has a serial that was given out. -/
structure Sound (state : Waits T S W) : Prop where
  acyclic : Acyclic state.Leads
  exclusive : ∀ session, session ∈ state.edges → session ∉ state.groups
  serials : ∀ session edge, state.edges.lookup session = some edge → edge.serial ≤ state.serial

/-- `later` holds nothing that `state` does not hold. -/
structure Within (later state : Waits T S W) : Prop where
  sessions : ∀ task session, later.sessions.lookup task = some session →
    state.sessions.lookup task = some session
  edges : ∀ session edge, later.edges.lookup session = some edge →
    state.edges.lookup session = some edge
  groups : ∀ session children, later.groups.lookup session = some children →
    state.groups.lookup session = some children

variable {later : Waits T S W}

theorem Within.leads (h : later.Within state) {a b : Node T S} (hedge : later.Leads a b) :
    state.Leads a b := by
  cases a with
  | task task =>
    obtain ⟨session, hlook, hb⟩ := leads_task.mp hedge
    exact leads_task.mpr ⟨session, h.sessions task session hlook, hb⟩
  | session session =>
    rcases leads_session.mp hedge with ⟨edge, hlook, hb⟩ | ⟨children, hlook, hb⟩
    · exact leads_session.mpr (.inl ⟨edge, h.edges session edge hlook, hb⟩)
    · exact leads_session.mpr (.inr ⟨children, h.groups session children hlook, hb⟩)

theorem mem_of_lookup {β : Type} {map : AList fun _ : S => β} :
    session ∈ map ↔ ∃ value, map.lookup session = some value := by
  rw [← AList.lookup_isSome, Option.isSome_iff_exists]

/-- Forgetting what leads somewhere keeps the invariant. -/
theorem Sound.within (h : state.Sound) (hwith : later.Within state)
    (hser : later.serial = state.serial) : later.Sound := by
  refine ⟨h.acyclic.mono fun _ _ => hwith.leads, fun session hmem hgrp => ?_,
    fun session edge hlook => ?_⟩
  · obtain ⟨edge, hedge⟩ := mem_of_lookup.mp hmem
    obtain ⟨children, hkids⟩ := mem_of_lookup.mp hgrp
    exact h.exclusive session (mem_of_lookup.mpr ⟨edge, hwith.edges session edge hedge⟩)
      (mem_of_lookup.mpr ⟨children, hwith.groups session children hkids⟩)
  · rw [hser]
    exact h.serials session edge (hwith.edges session edge hlook)

theorem lookup_of_erase {K β : Type} [DecidableEq K] {map : AList fun _ : K => β} {key other : K}
    {value : β} (h : (map.erase key).lookup other = some value) : map.lookup other = some value := by
  by_cases hkey : other = key
  · subst hkey
    rw [AList.lookup_erase] at h
    cases h
  · rwa [AList.lookup_erase_ne hkey] at h

theorem detachGroup_within (parent : S) : (state.detachGroup parent).Within state :=
  ⟨fun _ _ => id, fun _ _ => id, fun _ _ => lookup_of_erase⟩

theorem drop_within (lease : WaitLease S) : (state.drop lease).Within state := by
  unfold drop
  split
  · exact ⟨fun _ _ => id, fun _ _ => lookup_of_erase, fun _ _ => id⟩
  · exact ⟨fun _ _ => id, fun _ _ => id, fun _ _ => id⟩

theorem complete_edges {edge : Wait T W}
    (h : (state.complete task).1.edges.lookup session = some edge) :
    state.edges.lookup session = some edge ∧ edge.target ≠ task := by
  have hmem := AList.mem_lookup_iff.mp h
  obtain ⟨hent, htgt⟩ := mem_filter.mp hmem
  refine ⟨?_, of_decide_eq_true htgt⟩
  have hlook : (state.withoutExecution task).lookup session = some edge :=
    AList.mem_lookup_iff.mpr hent
  unfold withoutExecution at hlook
  split at hlook
  · exact lookup_of_erase hlook
  · exact hlook

theorem complete_within (task : T) : (state.complete task).1.Within state :=
  ⟨fun _ _ => lookup_of_erase, fun _ _ h => (complete_edges h).1, fun _ _ => id⟩

/-- The execution of a task does not wait for it, so all who wait are woken. -/
theorem complete_wakes (h : Acyclic state.Leads) (task : T) :
    (state.complete task).2 = (state.edges.entries.filter fun entry =>
      decide (entry.2.target = task)).map fun entry => entry.2.wake := by
  show ((state.withoutExecution task).entries.filter _).map _ = _
  unfold withoutExecution
  split
  · rename_i session hsess
    congr 1
    show ((state.edges.entries.kerase session).filter _) = _
    by_cases hkey : session ∈ state.edges.entries.keys
    · obtain ⟨edge, before, after, -, hents, herase⟩ := exists_of_kerase hkey
      have hlook : state.edges.lookup session = some edge :=
        AList.mem_lookup_iff.mpr (by rw [hents]; simp)
      have htgt : edge.target ≠ task := by
        rintro rfl
        refine h (.task edge.target) (.tail (.single (leads_task.mpr ⟨session, hsess, rfl⟩)) ?_)
        exact leads_session.mpr (.inl ⟨edge, hlook, rfl⟩)
      rw [herase, hents, filter_append, filter_append,
        filter_cons_of_neg (by simpa using htgt)]
    · rw [kerase_of_notMem_keys hkey]
  · rfl

theorem attach_sound (h : state.Sound)
    (hatt : state.attach memory task session = .ok later) : later.Sound := by
  obtain ⟨hback, rfl⟩ := attach_ok hatt
  refine ⟨h.acyclic.add (x := .task task) (p := fun b => b = .session session)
    (fun a b hedge => ?_) (fun b hb => hb ▸ hback), h.exclusive, h.serials⟩
  cases a with
  | session other => exact .inl (leads_session.mpr (leads_session.mp hedge :))
  | task other =>
    obtain ⟨found, hlook, rfl⟩ := leads_task.mp hedge
    by_cases hne : other = task
    · subst hne
      rw [AList.lookup_insert] at hlook
      cases hlook
      exact .inr ⟨rfl, rfl⟩
    · rw [AList.lookup_insert_ne hne] at hlook
      exact .inl (leads_task.mpr ⟨found, hlook, rfl⟩)

theorem attachGroup_sound {parent : S}
    (h : state.Sound)
    (hatt : state.attachGroup memory limits parent children = .ok later) : later.Sound := by
  obtain ⟨hfree, hfst, hsnd, rfl⟩ := attachGroup_ok hatt
  refine ⟨h.acyclic.add (x := .session parent)
    (p := fun b => b = .session children.1 ∨ b = .session children.2) (fun a b hedge => ?_) ?_,
    fun session hedge hgrp => ?_, h.serials⟩
  · cases a with
    | task other => exact .inl (leads_task.mpr (leads_task.mp hedge :))
    | session other =>
      rcases leads_session.mp hedge with hwait | ⟨found, hlook, hb⟩
      · exact .inl (leads_session.mpr (.inl hwait))
      · by_cases hne : other = parent
        · subst hne
          rw [AList.lookup_insert] at hlook
          cases hlook
          exact .inr ⟨rfl, hb⟩
        · rw [AList.lookup_insert_ne hne] at hlook
          exact .inl (leads_session.mpr (.inr ⟨found, hlook, hb⟩))
  · rintro b (rfl | rfl)
    · exact hfst
    · exact hsnd
  · rcases AList.mem_insert _ |>.mp hgrp with rfl | hgrp
    · exact hfree hedge
    · exact h.exclusive session hedge hgrp

theorem register_sound
    (h : state.Sound)
    (hreg : state.register memory limits session target wake = .ok (later, lease)) :
    later.Sound := by
  obtain ⟨hfree, hback, rfl, rfl⟩ := register_ok hreg
  refine ⟨h.acyclic.add (x := .session session) (p := fun b => b = .task target)
    (fun a b hedge => ?_) (fun b hb => hb ▸ hback), fun other hedge hgrp => ?_,
    fun other edge hlook => ?_⟩
  · cases a with
    | task other => exact .inl (leads_task.mpr (leads_task.mp hedge :))
    | session other =>
      rcases leads_session.mp hedge with ⟨edge, hlook, hb⟩ | hgrp
      · by_cases hne : other = session
        · subst hne
          rw [AList.lookup_insert] at hlook
          cases hlook
          exact .inr ⟨rfl, hb⟩
        · rw [AList.lookup_insert_ne hne] at hlook
          exact .inl (leads_session.mpr (.inl ⟨edge, hlook, hb⟩))
      · exact .inl (leads_session.mpr (.inr hgrp))
  · rcases AList.mem_insert _ |>.mp hedge with rfl | hedge
    · exact hfree hgrp
    · exact h.exclusive other hedge hgrp
  · by_cases hne : other = session
    · subst hne
      rw [AList.lookup_insert] at hlook
      cases hlook
      exact Nat.le_refl _
    · rw [AList.lookup_insert_ne hne] at hlook
      exact Nat.le_succ_of_le (h.serials other edge hlook)

/-! ## Leases -/

/-- The registration that the lease stands for is in place. -/
def Live (state : Waits T S W) (lease : WaitLease S) : Prop :=
  ∃ edge, state.edges.lookup lease.session = some edge ∧ edge.serial = lease.serial

section Lease

omit [DecidableEq T]

theorem drop_stale (h : ¬ state.Live lease) : state.drop lease = state := by
  unfold drop
  refine if_neg fun hany => h ?_
  obtain ⟨edge, hlook, hser⟩ := (Option.any_eq_true _ _).mp hany
  exact ⟨edge, hlook, by simpa using hser⟩

/-- What one step can do to the waits: a registration that was not there has a new serial. -/
structure Newer (later state : Waits T S W) : Prop where
  serial : state.serial ≤ later.serial
  edges : ∀ session edge, later.edges.lookup session = some edge →
    state.edges.lookup session = some edge ∨ state.serial < edge.serial

theorem Newer.refl : state.Newer state := ⟨Nat.le_refl _, fun _ _ => .inl⟩

theorem Newer.trans {last : Waits T S W} (h : last.Newer later) (h' : later.Newer state) :
    last.Newer state := by
  refine ⟨h'.serial.trans h.serial, fun session edge hlook => ?_⟩
  rcases h.edges session edge hlook with hlat | hser
  · exact h'.edges session edge hlat
  · exact .inr (Nat.lt_of_le_of_lt h'.serial hser)

/-- A lease given out before stays stale. -/
theorem Newer.live (h : later.Newer state) {lease : WaitLease S}
    (hser : lease.serial ≤ state.serial) (hlive : later.Live lease) : state.Live lease := by
  obtain ⟨edge, hlook, heq⟩ := hlive
  rcases h.edges _ _ hlook with hbef | hnew
  · exact ⟨edge, hbef, heq⟩
  · omega

theorem serial_drop (lease : WaitLease S) : (state.drop lease).serial = state.serial := by
  unfold drop
  split <;> rfl

end Lease

theorem Within.newer (h : later.Within state) (hser : later.serial = state.serial) :
    later.Newer state :=
  ⟨Nat.le_of_eq hser.symm, fun session edge hlook => .inl (h.edges session edge hlook)⟩

theorem register_newer
    (h : state.register memory limits session target wake = .ok (later, lease)) :
    later.Newer state := by
  obtain ⟨-, -, rfl, rfl⟩ := register_ok h
  refine ⟨Nat.le_succ _, fun other edge hlook => ?_⟩
  by_cases hne : other = session
  · subst hne
    rw [AList.lookup_insert] at hlook
    cases hlook
    exact .inr (Nat.lt_succ_self _)
  · rw [AList.lookup_insert_ne hne] at hlook
    exact .inl hlook

end Waits

/-! ## Runs -/

variable (limits : AsyncLimits)

namespace Registry

open Waits

variable {registry : Registry T S W}

theorem step_spec (memory : Nat → Bool) (call : Call T S W) (h : registry.waits.Sound) :
    (registry.step limits memory call).waits.Sound ∧
      (registry.step limits memory call).waits.Newer registry.waits := by
  unfold step
  cases call with
  | attach task session =>
    dsimp only
    split
    · rename_i waits hatt
      obtain ⟨-, rfl⟩ := attach_ok hatt
      exact ⟨attach_sound h hatt, Nat.le_refl _, fun _ _ => .inl⟩
    · exact ⟨h, .refl⟩
  | attachGroup parent children =>
    dsimp only
    split
    · rename_i waits hatt
      obtain ⟨-, -, -, rfl⟩ := attachGroup_ok hatt
      exact ⟨attachGroup_sound h hatt, Nat.le_refl _, fun _ _ => .inl⟩
    · exact ⟨h, .refl⟩
  | detachGroup parent =>
    have hwith : (registry.waits.detachGroup parent).Within registry.waits :=
      detachGroup_within parent
    exact ⟨h.within hwith rfl, hwith.newer rfl⟩
  | register session target wake =>
    dsimp only
    split
    · rename_i waits lease hreg
      exact ⟨register_sound h hreg, register_newer hreg⟩
    · exact ⟨h, .refl⟩
  | complete task =>
    have hwith : (registry.waits.complete task).1.Within registry.waits := complete_within task
    exact ⟨h.within hwith rfl, hwith.newer rfl⟩
  | drop i =>
    dsimp only
    split
    · rename_i lease _
      have hwith : (registry.waits.drop lease).Within registry.waits := drop_within lease
      exact ⟨h.within hwith (serial_drop lease), hwith.newer (serial_drop lease)⟩
    · exact ⟨h, .refl⟩

theorem run_spec (calls : List ((Nat → Bool) × Call T S W)) :
    ∀ registry : Registry T S W, registry.waits.Sound →
      (registry.run limits calls).waits.Sound ∧
        (registry.run limits calls).waits.Newer registry.waits := by
  induction calls with
  | nil => exact fun _ h => ⟨h, .refl⟩
  | cons call calls ih =>
    intro registry h
    obtain ⟨hsound, hnewer⟩ := step_spec limits call.1 call.2 h
    obtain ⟨hlast, hlat⟩ := ih _ hsound
    exact ⟨hlast, hlat.trans hnewer⟩

theorem start_sound : (start : Registry T S W).waits.Sound := by
  refine ⟨fun a hcyc => ?_, fun session hmem => ?_, fun session edge hlook => ?_⟩
  · obtain ⟨b, hedge, -⟩ := TransGen.head'_iff.mp hcyc
    cases a with
    | task task =>
      obtain ⟨session, hlook, -⟩ := leads_task.mp hedge
      cases hlook
    | session session =>
      rcases leads_session.mp hedge with ⟨edge, hlook, -⟩ | ⟨children, hlook, -⟩
      · cases hlook
      · cases hlook
  · exact absurd hmem (AList.notMem_empty session)
  · cases hlook

/-- Over any calls, each with any answers of the allocator: the graph has no cycle and an execution
one dependency; a cycle is reported when the edge closes one and the call is not refused before the
traversal, which never gives up; a lease undoes its own registration or nothing; a completed task
wakes exactly those who waited for it. -/
theorem run_dependencies (limits : AsyncLimits) (calls : List ((Nat → Bool) × Call T S W)) :
    let registry := start.run limits calls
    let waits := registry.waits
    Acyclic waits.Leads ∧ (∀ session, ¬ (session ∈ waits.edges ∧ session ∈ waits.groups)) ∧
    (∀ memory task session,
      Reports ((∀ i, memory i = true) ∧ task ∉ waits.sessions)
        (¬ Acyclic (waits.LeadsWith (.task task) [.session session]))
        (waits.attach memory task session)) ∧
    (∀ memory parent children,
      Reports (((∀ i, memory i = true) ∧ ¬ limits.maxGroups ≤ waits.groups.entries.length) ∧
          ¬ (parent ∈ waits.groups ∨ parent ∈ waits.edges))
        (¬ Acyclic (waits.LeadsWith (.session parent) [.session children.1, .session children.2]))
        (waits.attachGroup memory limits parent children)) ∧
    (∀ memory session target wake,
      Reports ((∀ i, memory i = true) ∧ ¬ (session ∈ waits.edges ∨ session ∈ waits.groups))
        (¬ Acyclic (waits.LeadsWith (.session session) [.task target]))
        (waits.register memory limits session target wake)) ∧
    (∀ memory session target wake registered lease,
      waits.register memory limits session target wake = .ok (registered, lease) →
      ∀ calls, let later := run limits calls ⟨registered, registry.leases ++ [lease]⟩
        (later.waits.Live lease →
          later.waits.edges.lookup lease.session = some ⟨target, lease.serial, wake⟩) ∧
        (¬ later.waits.Live lease → ∀ calls,
          (later.run limits calls).waits.drop lease = (later.run limits calls).waits)) ∧
    (∀ task, (waits.complete task).2 = (waits.edges.entries.filter fun entry =>
          decide (entry.2.target = task)).map (fun entry => entry.2.wake) ∧
      ∀ session edge, (waits.complete task).1.edges.lookup session = some edge →
        edge.target ≠ task) := by
  intro registry waits
  have h : waits.Sound := (run_spec limits calls start start_sound).1
  refine ⟨h.acyclic, fun session hboth => h.exclusive session hboth.1 hboth.2,
    fun memory task session => attach_reports h.acyclic task session,
    fun memory parent children => attachGroup_reports h.acyclic parent children,
    fun memory session target wake => register_reports h.acyclic session target wake, ?_,
    fun task => ⟨complete_wakes h.acyclic task, fun session edge hlook =>
      (complete_edges hlook).2⟩⟩
  intro memory session target wake registered lease hreg calls later
  have hregd : registered.Sound := register_sound h hreg
  obtain ⟨-, -, hstate, rfl⟩ := register_ok hreg
  have hser : registered.serial = waits.serial + 1 := by rw [hstate]
  obtain ⟨hsound, hnewer⟩ := run_spec limits calls
    ⟨registered, registry.leases ++ [⟨session, waits.serial + 1⟩]⟩ hregd
  refine ⟨fun ⟨edge, hlook, heq⟩ => ?_, fun hstale calls => drop_stale fun hlive => hstale ?_⟩
  · rcases hnewer.edges session edge hlook with hbef | hnew
    · rw [hstate, AList.lookup_insert] at hbef
      cases hbef
      exact hlook
    · dsimp only at heq hnew
      omega
  · refine (run_spec limits calls _ hsound).2.live ?_ hlive
    exact (Nat.le_of_eq hser.symm).trans hnewer.serial

/-- With room for one group, the second is refused before the traversal, though it would close a
cycle. -/
theorem attachGroup_limitBeforeCycle :
    let limits : AsyncLimits := ⟨1, 1⟩
    let waits := ((start : Registry Nat Nat Unit).run limits
      [(fun _ => true, .attachGroup 1 (2, 3))]).waits
    ¬ Acyclic (waits.LeadsWith (.session 2) [.session 1, .session 4]) ∧
      waits.attachGroup (fun _ => true) limits 2 (1, 4) =
        .error (.resourceLimit "group dependencies") := by
  intro limits waits
  refine ⟨fun hacyc => ?_, rfl⟩
  have hfst : waits.Leads (.session 1) (.session 2) :=
    leads_session.mpr (.inr ⟨(2, 3), rfl, .inl rfl⟩)
  exact hacyc (.session 2) (.tail (.single (.inr ⟨rfl, List.mem_cons_self⟩)) (.inl hfst))

end Registry

end Kagari.Runtime
