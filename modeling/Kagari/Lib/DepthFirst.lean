import Kagari.Lib.Search
import Mathlib.Algebra.Order.BigOperators.Group.Finset

/-!
# Depth-first search with colours

`visit` walks a graph from the nodes on a stack: a node is active from its first visit until everything
behind it is completed. It stops at a node that has no entry, and at one that is met again while it is
active. `check` starts at every node: it accepts exactly the graphs whose edges lead to nodes and that have
no cycle (`check_iff`).
-/

namespace Lib.DepthFirst

open Relation List

variable {α : Type}

/-- Where a walk is: a node on the stack is to be entered, or left. -/
structure Visit (α : Type) where
  completed : Finset α
  active : Finset α
  trail : List α
  pending : List (α × Bool)

inductive Refusal (α : Type) where
  | missing (node : α)
  | cycle (trail : List α) (node : α)

/-- The nodes that an entry of the graph leads to. -/
def Leads (edges : α → Option (List α)) (a b : α) : Prop := ∃ targets, edges a = some targets ∧ b ∈ targets

section Algorithm

variable [DecidableEq α]

/-- One turn, with the top of the stack. -/
def turn (edges : α → Option (List α)) (s : Visit α) (node : α) (exit : Bool) (pending : List (α × Bool)) :
    Except (Refusal α) (Visit α) :=
  if exit then .ok ⟨insert node s.completed, s.active.erase node, s.trail.dropLast, pending⟩
  else if node ∈ s.completed then .ok { s with pending }
  else if node ∈ s.active then .error (.cycle s.trail node)
  else match edges node with
    | none => .error (.missing node)
    | some targets =>
      .ok ⟨s.completed, insert node s.active, s.trail ++ [node], targets.map (·, false) ++ (node, true) :: pending⟩

/-- The nodes that are completed in the end; `none` when the fuel runs out. -/
def visit (edges : α → Option (List α)) : Nat → Visit α → Option (Except (Refusal α) (Finset α))
  | fuel, s =>
    match s.pending, fuel with
    | [], _ => some (.ok s.completed)
    | _ :: _, 0 => none
    | (node, exit) :: pending, fuel + 1 =>
      match turn edges s node exit pending with
      | .ok s => visit edges fuel s
      | .error e => some (.error e)

def check (edges : α → Option (List α)) (fuel : Nat) : List α → Finset α → Option (Except (Refusal α) Unit)
  | [], _ => some (.ok ())
  | root :: roots, completed =>
    match visit edges fuel ⟨completed, ∅, [], [(root, false)]⟩ with
    | some (.ok completed) => check edges fuel roots completed
    | some (.error e) => some (.error e)
    | none => none

end Algorithm

/-- What is completed is closed under the edges, and lies on no cycle. -/
structure Finished (edges : α → Option (List α)) (completed : Finset α) : Prop where
  entry : ∀ a ∈ completed, (edges a).isSome
  closed : ∀ a ∈ completed, ∀ b, Leads edges a b → b ∈ completed
  acyclic : ∀ a ∈ completed, ¬ TransGen (Leads edges) a a

/-- What is to be entered before a node is left: each target is completed, or waits, or is the node above. -/
structure Covers (completed : Finset α) (above : Option α) (items targets : List α) : Prop where
  sub : items ⊆ targets
  up : ∀ a, above = some a → a ∈ targets
  covered : ∀ a ∈ targets, a ∈ completed ∨ a ∈ items ∨ above = some a

/-- The stack in frames, one for each active node, over the nodes that the walk starts from. -/
inductive Framed (edges : α → Option (List α)) (completed : Finset α) (roots : List α) :
    Option α → List α → List (α × Bool) → Prop where
  | base {above : Option α} {items : List α} (covers : Covers completed above items roots) :
    Framed edges completed roots above [] (items.map (·, false))
  | frame {above : Option α} {node : α} {targets items active : List α} {pending : List (α × Bool)}
      (entry : edges node = some targets) (covers : Covers completed above items targets)
      (rest : Framed edges completed roots (some node) active pending) :
    Framed edges completed roots above (node :: active) (items.map (·, false) ++ (node, true) :: pending)

section Frames

variable {edges : α → Option (List α)} {completed completed' : Finset α} {roots : List α} {above : Option α}
  {active : List α} {pending : List (α × Bool)} {node : α}

variable {items targets : List α}

theorem Covers.mono (h : Covers completed above items targets)
    (hsub : completed ⊆ completed') : Covers completed' above items targets :=
  ⟨h.sub, h.up, fun a ha => (h.covered a ha).imp_left (@hsub a)⟩

theorem Framed.mono (h : Framed edges completed roots above active pending) (hsub : completed ⊆ completed') :
    Framed edges completed' roots above active pending := by
  induction h with
  | base covers => exact .base (covers.mono hsub)
  | frame entry covers _ ih => exact .frame entry (covers.mono hsub) ih

/-- The next node is taken from the stack. -/
theorem Covers.take (h : Covers completed none (node :: items) targets) :
    node ∈ targets ∧ Covers completed (some node) items targets := by
  refine ⟨h.sub mem_cons_self, fun a ha => h.sub (mem_cons_of_mem _ ha), ?_, fun a ha => ?_⟩
  · rintro a heq
    cases heq
    exact h.sub mem_cons_self
  · rcases h.covered a ha with hdone | hitem | habove
    · exact .inl hdone
    · rcases mem_cons.mp hitem with rfl | hitem
      · exact .inr (.inr rfl)
      · exact .inr (.inl hitem)
    · exact absurd habove nofun

theorem Framed.take (h : Framed edges completed roots none active ((node, false) :: pending)) :
    (node ∈ roots ∨ ∃ a, Leads edges a node) ∧ Framed edges completed roots (some node) active pending := by
  generalize hstk : (node, false) :: pending = stack at h
  cases h with
  | base covers =>
    rename_i items
    cases items with
    | nil => exact absurd hstk nofun
    | cons item items =>
      obtain ⟨heq, rfl⟩ := cons.inj hstk
      obtain rfl := congrArg Prod.fst heq
      obtain ⟨hmem, hcovs⟩ := covers.take
      exact ⟨.inl hmem, .base hcovs⟩
  | frame entry covers rest =>
    rename_i items _ _
    cases items with
    | nil => exact absurd (congrArg Prod.snd (cons.inj hstk).1) nofun
    | cons item items =>
      obtain ⟨heq, rfl⟩ := cons.inj hstk
      obtain rfl := congrArg Prod.fst heq
      obtain ⟨hmem, hcovs⟩ := covers.take
      exact ⟨.inr ⟨_, _, entry, hmem⟩, .frame entry hcovs rest⟩

/-- The node above is completed. -/
theorem Covers.close (h : Covers completed (some node) items targets)
    (hnode : node ∈ completed) : Covers completed none items targets := by
  refine ⟨h.sub, nofun, fun a ha => ?_⟩
  rcases h.covered a ha with hdone | hitem | habove
  · exact .inl hdone
  · exact .inr (.inl hitem)
  · exact .inl (Option.some.inj habove ▸ hnode)

theorem Framed.close (h : Framed edges completed roots (some node) active pending) (hnode : node ∈ completed) :
    Framed edges completed roots none active pending := by
  cases h with
  | base covers => exact .base (covers.close hnode)
  | frame entry covers rest => exact .frame entry (covers.close hnode) rest

/-- A node is left: all its targets are completed. -/
theorem Framed.leave (h : Framed edges completed roots none active ((node, true) :: pending)) :
    ∃ below targets, active = node :: below ∧ edges node = some targets ∧ (∀ a ∈ targets, a ∈ completed) ∧
      Framed edges completed roots (some node) below pending := by
  generalize hstk : (node, true) :: pending = stack at h
  cases h with
  | base covers =>
    rename_i items
    cases items with
    | nil => exact absurd hstk nofun
    | cons item items => exact absurd (congrArg Prod.snd (cons.inj hstk).1) nofun
  | frame entry covers rest =>
    rename_i items _ _
    cases items with
    | cons item items => exact absurd (congrArg Prod.snd (cons.inj hstk).1) nofun
    | nil =>
      obtain ⟨heq, rfl⟩ := cons.inj hstk
      obtain rfl := congrArg Prod.fst heq
      refine ⟨_, _, rfl, entry, fun a ha => ?_, rest⟩
      rcases covers.covered a ha with hdone | hitem | habove
      · exact hdone
      · exact absurd hitem not_mem_nil
      · exact absurd habove nofun

/-- Every active node leads to the one above. -/
theorem Framed.path (h : Framed edges completed roots above active pending) :
    ∀ a ∈ active, ∀ b, above = some b → TransGen (Leads edges) a b := by
  induction h with
  | base => exact fun a ha => absurd ha not_mem_nil
  | frame entry covers _ ih =>
    intro a ha b hb
    have hup : Leads edges _ b := ⟨_, entry, covers.up b hb⟩
    rcases mem_cons.mp ha with rfl | ha
    · exact .single hup
    · exact (ih a ha _ rfl).tail hup

/-- With nothing on the stack, the walk is done. -/
theorem Framed.finish (h : Framed edges completed roots none active []) : ∀ a ∈ roots, a ∈ completed := by
  generalize hstk : ([] : List (α × Bool)) = stack at h
  cases h with
  | base covers =>
    intro a ha
    rcases covers.covered a ha with hdone | hitem | habove
    · exact hdone
    · rw [map_eq_nil_iff.mp hstk.symm] at hitem
      exact absurd hitem not_mem_nil
    · exact absurd habove nofun
  | frame => exact absurd hstk (by simp)

end Frames

section Walk

variable [DecidableEq α] {edges : α → Option (List α)} {completed : Finset α} {roots : List α} {s : Visit α}
  {node : α} {pending : List (α × Bool)}

variable {targets : List α} {nodes : Finset α}

/-- One more node all of whose targets are completed. -/
theorem Finished.insert (h : Finished edges completed) (hent : edges node = some targets)
    (htgts : ∀ a ∈ targets, a ∈ completed) (hnode : node ∉ completed) :
    Finished edges (insert node completed) := by
  have hclos : ∀ a b, a ∈ completed → TransGen (Leads edges) a b → b ∈ completed := by
    intro a b ha hpath
    induction hpath with
    | single hedge => exact h.closed a ha _ hedge
    | tail _ hedge ih => exact h.closed _ ih _ hedge
  have hnext : ∀ b, Leads edges node b → b ∈ completed := by
    rintro b ⟨found, hfnd, hb⟩
    cases hent.symm.trans hfnd
    exact htgts b hb
  refine ⟨fun a ha => ?_, fun a ha b hb => ?_, fun a ha hcyc => ?_⟩
  all_goals rcases Finset.mem_insert.mp ha with rfl | ha
  · rw [hent]
    rfl
  · exact h.entry a ha
  · exact Finset.mem_insert_of_mem (hnext b hb)
  · exact Finset.mem_insert_of_mem (h.closed a ha b hb)
  · -- the way back starts in what was completed before
    obtain ⟨b, hedge, hback⟩ := TransGen.head'_iff.mp hcyc
    rcases reflTransGen_iff_eq_or_transGen.mp hback with rfl | hback
    · exact hnode (hnext _ hedge)
    · exact hnode (hclos _ _ (hnext b hedge) hback)
  · exact h.acyclic a ha hcyc

/-- What a walk keeps between two turns; the frames name the active nodes. -/
structure Walk (edges : α → Option (List α)) (roots : List α) (s : Visit α) (frames : List α) : Prop where
  finished : Finished edges s.completed
  framed : Framed edges s.completed roots none frames s.pending
  active : ∀ a, a ∈ s.active ↔ a ∈ frames
  nodup : frames.Nodup
  apart : ∀ a ∈ frames, a ∉ s.completed

/-- The nodes that were not entered yet, with what each can put on the stack. -/
def room (edges : α → Option (List α)) (nodes : Finset α) (s : Visit α) : Nat :=
  ∑ a ∈ nodes \ (s.completed ∪ s.active), (1 + ((edges a).getD []).length)

/-- What an edge can do wrong. -/
def Faulty (edges : α → Option (List α)) : Prop :=
  (∃ a b, Leads edges a b ∧ edges b = none) ∨ ∃ a, TransGen (Leads edges) a a

theorem room_enter (hnode : node ∈ nodes) (hcpld : node ∉ s.completed)
    (hactv : node ∉ s.active) (hent : edges node = some targets) {trail : List α} :
    room edges nodes s =
      1 + targets.length + room edges nodes ⟨s.completed, insert node s.active, trail, pending⟩ := by
  have hmem : node ∈ nodes \ (s.completed ∪ s.active) := by
    simp [hnode, hcpld, hactv]
  have herase : nodes \ (s.completed ∪ insert node s.active) = (nodes \ (s.completed ∪ s.active)).erase node := by
    ext a
    simp only [Finset.mem_sdiff, Finset.mem_union, Finset.mem_insert, Finset.mem_erase]
    tauto
  unfold room
  rw [← Finset.add_sum_erase _ _ hmem, herase, hent]
  rfl

theorem visit_spec (hnds : ∀ a, (edges a).isSome ↔ a ∈ nodes)
    (hrts : ∀ a ∈ roots, a ∈ nodes) (fuel : Nat) : ∀ {s : Visit α} {frames : List α},
      Walk edges roots s frames → s.pending.length + room edges nodes s ≤ fuel →
      (∃ completed, visit edges fuel s = some (.ok completed) ∧ Finished edges completed ∧
        s.completed ⊆ completed ∧ ∀ a ∈ roots, a ∈ completed) ∨
      ∃ e, visit edges fuel s = some (.error e) ∧ Faulty edges := by
  induction fuel with
  | zero =>
    rintro ⟨completed, active, trail, pending⟩ frames h hfuel
    obtain rfl : pending = [] := length_eq_zero_iff.mp (by dsimp only at hfuel; omega)
    exact .inl ⟨completed, rfl, h.finished, Finset.Subset.refl _, h.framed.finish⟩
  | succ fuel ih =>
    rintro ⟨completed, active, trail, pending⟩ frames ⟨hfin, hframed, hactv, hnd, hapart⟩ hfuel
    dsimp only at hfin hframed hactv hapart
    rcases pending with _ | ⟨⟨node, exit⟩, pending⟩
    · exact .inl ⟨completed, rfl, hfin, Finset.Subset.refl _, hframed.finish⟩
    rw [length_cons] at hfuel
    unfold visit turn
    dsimp only
    cases exit with
    | true =>
      obtain ⟨below, targets, rfl, hent, htgts, hrest⟩ := hframed.leave
      obtain ⟨hbelow, hnd⟩ := nodup_cons.mp hnd
      have hsub : completed ⊆ insert node completed := Finset.subset_insert _ _
      have hleft : Walk edges roots ⟨insert node completed, active.erase node, trail.dropLast, pending⟩ below := by
        refine ⟨hfin.insert hent htgts (hapart node mem_cons_self),
          (hrest.mono hsub).close (Finset.mem_insert_self _ _), fun a => ?_, hnd, fun a ha => ?_⟩
        · rw [Finset.mem_erase, hactv, mem_cons]
          constructor
          · tauto
          · exact fun ha => ⟨ne_of_mem_of_not_mem ha hbelow, .inr ha⟩
        · rw [Finset.mem_insert, not_or]
          exact ⟨ne_of_mem_of_not_mem ha hbelow, hapart a (mem_cons_of_mem _ ha)⟩
      have hroom : room edges nodes ⟨insert node completed, active.erase node, trail.dropLast, pending⟩ =
          room edges nodes ⟨completed, active, trail, (node, true) :: pending⟩ := by
        have hnode : node ∈ active := (hactv node).mpr mem_cons_self
        unfold room
        congr 1
        ext a
        simp only [Finset.mem_sdiff, Finset.mem_union, Finset.mem_insert, Finset.mem_erase]
        by_cases ha : a = node
        · simp [ha, hnode]
        · simp [ha]
      rw [if_pos rfl]
      rcases ih hleft (by rw [hroom]; dsimp only; omega) with ⟨done, hrun, hdone, hmore, hall⟩ | hfail
      · exact .inl ⟨done, hrun, hdone, hsub.trans hmore, hall⟩
      · exact .inr hfail
    | false =>
      rw [if_neg nofun]
      obtain ⟨hsrc, hrest⟩ := hframed.take
      by_cases hcpld : node ∈ completed
      · rw [if_pos hcpld]
        exact ih ⟨hfin, hrest.close hcpld, hactv, hnd, hapart⟩ (by
          unfold room at hfuel ⊢
          dsimp only at hfuel ⊢
          omega)
      rw [if_neg hcpld]
      by_cases hnode : node ∈ active
      · -- the active nodes lead to the one on top, and that one back to `node`
        rw [if_pos hnode]
        exact .inr ⟨_, rfl, .inr ⟨node, hrest.path node ((hactv node).mp hnode) node rfl⟩⟩
      rw [if_neg hnode]
      cases hent : edges node with
      | none =>
        refine .inr ⟨_, rfl, .inl ?_⟩
        rcases hsrc with hroot | ⟨a, ha⟩
        · have hsome := (hnds node).mpr (hrts node hroot)
          rw [hent] at hsome
          exact absurd hsome nofun
        · exact ⟨a, node, ha, hent⟩
      | some targets =>
        have hmem : node ∈ nodes := (hnds node).mp (by rw [hent]; rfl)
        have hframed : Framed edges completed roots none (node :: frames)
            (targets.map (·, false) ++ (node, true) :: pending) :=
          .frame hent ⟨List.Subset.refl _, nofun, fun a ha => .inr (.inl ha)⟩ hrest
        have hnew : node ∉ frames := fun hin => hnode ((hactv node).mpr hin)
        have hroom : room edges nodes ⟨completed, active, trail, (node, false) :: pending⟩ =
            1 + targets.length + room edges nodes ⟨completed, insert node active, trail ++ [node],
              targets.map (·, false) ++ (node, true) :: pending⟩ :=
          room_enter hmem hcpld hnode hent
        refine ih ⟨hfin, hframed, fun a => ?_, nodup_cons.mpr ⟨hnew, hnd⟩, fun a ha => ?_⟩ ?_
        · rw [Finset.mem_insert, mem_cons, hactv]
        · rcases mem_cons.mp ha with rfl | ha
          · exact hcpld
          · exact hapart a ha
        · rw [length_append, length_map, length_cons]
          omega

theorem check_spec (hnds : ∀ a, (edges a).isSome ↔ a ∈ nodes) {fuel : Nat}
    (hfuel : 1 + ∑ a ∈ nodes, (1 + ((edges a).getD []).length) ≤ fuel) (roots : List α) :
    ∀ {completed : Finset α}, (∀ a ∈ roots, a ∈ nodes) → Finished edges completed →
      (check edges fuel roots completed = some (.ok ()) ∧
        ∃ all, Finished edges all ∧ completed ⊆ all ∧ ∀ a ∈ roots, a ∈ all) ∨
        ∃ e, check edges fuel roots completed = some (.error e) ∧ Faulty edges := by
  induction roots with
  | nil => exact fun _ h => .inl ⟨rfl, _, h, Finset.Subset.refl _, nofun⟩
  | cons root roots ih =>
    intro completed hrts h
    have hst : Walk edges [root] ⟨completed, ∅, [], [(root, false)]⟩ [] :=
      ⟨h, @Framed.base _ _ _ _ _ [root] ⟨List.Subset.refl _, nofun, fun a ha => .inr (.inl ha)⟩, by simp,
        nodup_nil, nofun⟩
    have hroom : room edges nodes ⟨completed, ∅, [], [(root, false)]⟩ ≤
        ∑ a ∈ nodes, (1 + ((edges a).getD []).length) := Finset.sum_le_sum_of_subset Finset.sdiff_subset
    have hone : ∀ a ∈ [root], a ∈ nodes := by
      rintro a ha
      rw [mem_singleton.mp ha]
      exact hrts root mem_cons_self
    unfold check
    rcases visit_spec hnds hone fuel hst (by dsimp only [length_singleton]; omega) with
      ⟨done, hrun, hdone, hsub, hroot⟩ | ⟨e, hrun, hfail⟩
    · rw [hrun]
      rcases ih (fun a ha => hrts a (mem_cons_of_mem _ ha)) hdone with ⟨hok, all, hall, hmore, hrest⟩ | hfail
      · refine .inl ⟨hok, all, hall, hsub.trans hmore, fun a ha => ?_⟩
        rcases mem_cons.mp ha with rfl | ha
        · exact hmore (hroot a mem_cons_self)
        · exact hrest a ha
      · exact .inr hfail
    · rw [hrun]
      exact .inr ⟨e, rfl, hfail⟩

/-- The check accepts exactly the graphs whose edges lead to nodes, without a cycle. -/
theorem check_iff {roots : List α} (hrts : ∀ a, (edges a).isSome ↔ a ∈ roots) {fuel : Nat}
    (hfuel : 1 + ∑ a ∈ roots.toFinset, (1 + ((edges a).getD []).length) ≤ fuel) :
    ∃ result, check edges fuel roots ∅ = some result ∧ (result = .ok () ↔
      (∀ a b, Leads edges a b → b ∈ roots) ∧ Acyclic (Leads edges)) := by
  have hemp : Finished edges ∅ := ⟨nofun, nofun, nofun⟩
  have hnds : ∀ a, (edges a).isSome ↔ a ∈ roots.toFinset := fun a => (hrts a).trans mem_toFinset.symm
  rcases check_spec hnds hfuel roots (fun a ha => mem_toFinset.mpr ha) hemp with
    ⟨hrun, all, hall, -, hmem⟩ | ⟨e, hrun, hfail⟩
  · refine ⟨_, hrun, iff_of_true rfl ⟨fun a b hedge => ?_, fun a hcyc => ?_⟩⟩
    all_goals
      have hent : ∀ b, Leads edges a b → (edges a).isSome := fun b ⟨targets, hent, _⟩ => by rw [hent]; rfl
    · have ha := hmem a ((hrts a).mp (hent b hedge))
      exact (hrts b).mp (hall.entry b (hall.closed a ha b hedge))
    · obtain ⟨b, hedge, -⟩ := TransGen.head'_iff.mp hcyc
      exact hall.acyclic a (hmem a ((hrts a).mp (hent b hedge))) hcyc
  · refine ⟨_, hrun, iff_of_false nofun ?_⟩
    rintro ⟨hclos, hacyc⟩
    rcases hfail with ⟨a, b, hedge, hnone⟩ | ⟨a, hcyc⟩
    · have hsome := (hrts b).mpr (hclos a b hedge)
      rw [hnone] at hsome
      exact absurd hsome nofun
    · exact hacyc a hcyc

end Walk

end Lib.DepthFirst
