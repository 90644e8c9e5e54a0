import Kagari.Bytecode.Module
import Kagari.Lib.Checked
import Kagari.Lib.Heap

/-!
# The debug availability index

`kagari-bytecode/src/availability.rs`: the visible bindings of a function, sorted by start in a
heap sort that can stop between any two steps, then indexed as a balanced tree of interval ends.

`visit_exact`: a query answers with the covering ranges, each once, by start and then by position.
Every step charges the caller, so all functions are checked computations over the caller's state.
-/

namespace Kagari.Bytecode

structure DebugNode where
  range : LocalLiveRange
  ordinal : Nat
  maxEnd : Nat
deriving Inhabited

variable {node : DebugNode} {nodes : List DebugNode}

namespace DebugAvailability

def key (node : DebugNode) : Nat ×ₗ Nat := toLex (node.range.start, node.ordinal)

section Model

variable {σ ε : Type} (charge : Nat → StateT σ (Except ε) Unit)

/-- Move the root of the first `len` nodes down. A sift goes down at most `len` levels, so the
fuel is never what ends it. -/
def sift (len : Nat) : Nat → Array DebugNode → Nat → StateT σ (Except ε) (Array DebugNode)
  | 0, nodes, _ => pure nodes
  | fuel + 1, nodes, root =>
    if root < len / 2 then do
      charge 3
      let child := if root * 2 + 2 < len ∧ key nodes[root * 2 + 1]! < key nodes[root * 2 + 2]!
        then root * 2 + 2 else root * 2 + 1
      if key nodes[root]! ≥ key nodes[child]! then pure nodes
      else sift len fuel (nodes.swapIfInBounds root child) child
    else pure nodes

/-- The nodes of the ranges that are not empty. -/
def collect : List LocalLiveRange → Nat → Array DebugNode → StateT σ (Except ε) (Array DebugNode)
  | [], _, nodes => pure nodes
  | range :: ranges, ordinal, nodes => do
    charge 1
    let nodes := if range.start < range.stop then nodes.push ⟨range, ordinal, range.stop⟩ else nodes
    collect ranges (ordinal + 1) nodes

/-- Build the heap: the roots below `count`, the last one first. -/
def heapify (len : Nat) : Nat → Array DebugNode → StateT σ (Except ε) (Array DebugNode)
  | 0, nodes => pure nodes
  | root + 1, nodes => do
    let nodes ← sift charge len len nodes root
    heapify len root nodes

/-- Take the greatest nodes off the heap of the first `count + 1`, one after the other. -/
def extract : Nat → Array DebugNode → StateT σ (Except ε) (Array DebugNode)
  | 0, nodes => pure nodes
  | stop + 1, nodes => do
    charge 1
    let nodes := nodes.swapIfInBounds 0 (stop + 1)
    let nodes ← sift charge (stop + 1) (stop + 1) nodes 0
    extract stop nodes

/-- Write the greatest end of each subtree into its middle node. Fuel is the number of nodes. -/
def index : Nat → List DebugNode → StateT σ (Except ε) (List DebugNode × Nat)
  | 0, nodes => pure (nodes, 0)
  | fuel + 1, nodes =>
    match nodes.drop (nodes.length / 2) with
    | [] => pure (nodes, 0)
    | node :: right => do
      charge 1
      let (left, leftEnd) ← index fuel (nodes.take (nodes.length / 2))
      let (right, rightEnd) ← index fuel right
      let maxEnd := max (max node.range.stop leftEnd) rightEnd
      return (left ++ { node with maxEnd } :: right, maxEnd)

def new (ranges : List LocalLiveRange) : StateT σ (Except ε) (List DebugNode) := do
  charge ranges.length
  let nodes ← collect charge ranges 0 #[]
  let nodes ← heapify charge nodes.size (nodes.size / 2) nodes
  let nodes ← extract charge (nodes.size - 1) nodes
  let (nodes, _) ← index charge nodes.size nodes.toList
  return nodes

/-- The slot of a node that starts early enough. -/
def visitOwn (pc : Nat) (node : DebugNode) : StateT σ (Except ε) (List Slot) :=
  if pc < node.range.stop then do
    charge 1
    return [node.range.slot]
  else return []

/-- The slots of the covering ranges. Fuel is the number of nodes. -/
def visitNodes (pc : Nat) : Nat → List DebugNode → StateT σ (Except ε) (List Slot)
  | 0, _ => pure []
  | fuel + 1, nodes =>
    match nodes.drop (nodes.length / 2) with
    | [] => pure []
    | node :: right => do
      charge 1
      if node.maxEnd ≤ pc then return []
      else do
        let left ← visitNodes pc fuel (nodes.take (nodes.length / 2))
        if node.range.start ≤ pc then do
          let own ← visitOwn charge pc node
          let right ← visitNodes pc fuel right
          return left ++ own ++ right
        else return left

def visit (nodes : List DebugNode) (pc : Nat) : StateT σ (Except ε) (List Slot) :=
  visitNodes charge pc nodes.length nodes

end Model

open Lib List

section Sorting

variable {σ ε : Type} {charge : Nat → StateT σ (Except ε) Unit} {len : Nat}

def keyAt (nodes : Array DebugNode) (k : Nat) : Nat ×ₗ Nat := key nodes[k]!

variable {nodes : Array DebugNode}

theorem keyAt_swap {i j : Nat} (hi : i < nodes.size)
    (hj : j < nodes.size) : keyAt (nodes.swapIfInBounds i j) = exchange (keyAt nodes) i j := by
  funext k
  have h := congrFun (getElem!_swapIfInBounds hi hj) k
  unfold keyAt
  rw [h]
  unfold exchange
  split
  · rfl
  · split
    · rfl
    · rfl

/-- The first `len` nodes changed places among themselves, and no other. -/
structure Rearranged (len : Nat) (before after : Array DebugNode) : Prop where
  perm : after.toList.Perm before.toList
  tail : ∀ k, len ≤ k → after[k]! = before[k]!
  bound : ∀ m, (∀ i, i < len → keyAt before i ≤ m) → ∀ i, i < len → keyAt after i ≤ m

namespace Rearranged

theorem refl (nodes : Array DebugNode) : Rearranged len nodes nodes :=
  ⟨.refl _, fun _ _ => rfl, fun _ h => h⟩

theorem trans {a b c : Array DebugNode} (h : Rearranged len a b) (h' : Rearranged len b c) :
    Rearranged len a c :=
  ⟨h'.perm.trans h.perm, fun k hk => (h'.tail k hk).trans (h.tail k hk),
    fun m hm => h'.bound m (h.bound m hm)⟩

theorem size_eq {a b : Array DebugNode} (h : Rearranged len a b) : b.size = a.size := by
  simpa using h.perm.length_eq

theorem swap {i j : Nat} (hlen : len ≤ nodes.size) (hi : i < len)
    (hj : j < len) : Rearranged len nodes (nodes.swapIfInBounds i j) := by
  have hi' : i < nodes.size := by omega
  have hj' : j < nodes.size := by omega
  refine ⟨?_, fun k hk => ?_, fun m hm k hk => ?_⟩
  · rw [Array.swapIfInBounds, dif_pos hi', dif_pos hj']
    exact Array.perm_iff_toList_perm.mp (Array.swap_perm hi' hj')
  · have h := congrFun (getElem!_swapIfInBounds hi' hj') k
    rwa [exchange_of_ne _ (by omega) (by omega)] at h
  · rw [keyAt_swap hi' hj']
    unfold exchange
    split
    · exact hm j hj
    · split
      · exact hm i hi
      · exact hm k hk

end Rearranged

/-- A sift restores the heap from `lo` on. -/
theorem sift_spec {lo : Nat} (fuel : Nat) : ∀ {nodes : Array DebugNode} {root : Nat},
    len ≤ nodes.size → Sifting (keyAt nodes) len lo root → lo ≤ root → len ≤ root + fuel →
    Ensures (sift charge len fuel nodes root)
      (fun out => HeapFrom (keyAt out) len lo ∧ Rearranged len nodes out) := by
  induction fuel with
  | zero =>
    intro nodes root hlen hsift hlo hfuel
    refine .pure ⟨hsift.settle (fun c hc hcn => ?_), .refl nodes⟩
    unfold IsChild at hc
    omega
  | succ fuel ih =>
    intro nodes root hlen hsift hlo hfuel
    unfold sift
    by_cases hroot : root < len / 2
    · rw [if_pos hroot]
      refine .seq ?_
      generalize hch : (if root * 2 + 2 < len ∧
        key nodes[root * 2 + 1]! < key nodes[root * 2 + 2]! then root * 2 + 2 else root * 2 + 1) =
          child
      have hch' : IsChild child root ∧ child < len ∧
          ∀ c, IsChild c root → c < len → keyAt nodes c ≤ keyAt nodes child := by
        by_cases hrt : root * 2 + 2 < len ∧
            key nodes[root * 2 + 1]! < key nodes[root * 2 + 2]!
        · rw [if_pos hrt] at hch
          subst hch
          refine ⟨.inr (by omega), hrt.1, fun c hc hcn => ?_⟩
          rcases hc with rfl | rfl
          · rw [Nat.mul_comm 2 root]
            exact le_of_lt hrt.2
          · rw [Nat.mul_comm 2 root]
        · rw [if_neg hrt] at hch
          subst hch
          refine ⟨.inl (by omega), by omega, fun c hc hcn => ?_⟩
          rcases hc with rfl | rfl
          · rw [Nat.mul_comm 2 root]
          · rw [Nat.mul_comm 2 root] at hcn ⊢
            exact not_lt.mp (fun hlt => hrt ⟨hcn, hlt⟩)
      obtain ⟨hisChild, hcn, hgreatest⟩ := hch'
      by_cases hstop : key nodes[root]! ≥ key nodes[child]!
      · rw [if_pos hstop]
        refine .pure ⟨hsift.settle (fun c hc hcn => ?_), .refl nodes⟩
        exact (hgreatest c hc hcn).trans hstop
      · rw [if_neg hstop]
        have hlt : root < child := by
          unfold IsChild at hisChild
          omega
        have hnext : Sifting (keyAt (nodes.swapIfInBounds root child)) len lo child := by
          rw [keyAt_swap (by omega) (by omega)]
          exact hsift.descend hlo hisChild hcn hgreatest (le_of_lt (not_le.mp hstop))
        have hswap : Rearranged len nodes (nodes.swapIfInBounds root child) :=
          .swap hlen (by omega) hcn
        refine (ih (by rw [hswap.size_eq]; exact hlen) hnext (by omega) (by omega)).mono ?_
        rintro out ⟨hheap, hre⟩
        exact ⟨hheap, hswap.trans hre⟩
    · rw [if_neg hroot]
      refine .pure ⟨hsift.settle (fun c hc hcn => ?_), .refl nodes⟩
      unfold IsChild at hc
      omega

theorem heapify_spec (count : Nat) : ∀ {nodes : Array DebugNode}, len ≤ nodes.size →
    HeapFrom (keyAt nodes) len count →
    Ensures (heapify charge len count nodes)
      (fun out => HeapFrom (keyAt out) len 0 ∧ Rearranged len nodes out) := by
  induction count with
  | zero => exact fun _ h => .pure ⟨h, .refl _⟩
  | succ root ih =>
    intro nodes hlen hheap
    refine .bind (sift_spec len hlen hheap.sifting (Nat.le_refl _) (by omega)) ?_
    rintro mid ⟨hheap', hre⟩
    refine (ih (by rw [hre.size_eq]; exact hlen) hheap').mono ?_
    rintro out ⟨hout, hre'⟩
    exact ⟨hout, hre.trans hre'⟩

/-- From `stop` on, the nodes are sorted and not before any earlier one. -/
def SortedFrom (nodes : Array DebugNode) (stop : Nat) : Prop :=
  ∀ i j, i < j → stop ≤ j → j < nodes.size → keyAt nodes i ≤ keyAt nodes j

theorem extract_spec (stop : Nat) : ∀ {nodes : Array DebugNode}, stop < nodes.size →
    HeapFrom (keyAt nodes) (stop + 1) 0 → SortedFrom nodes (stop + 1) →
    Ensures (extract charge stop nodes)
      (fun out => SortedFrom out 1 ∧ out.toList.Perm nodes.toList) := by
  induction stop with
  | zero => exact fun _ _ h => .pure ⟨h, .refl _⟩
  | succ stop ih =>
    intro nodes hlt hheap hsrtd
    unfold extract
    refine .seq ?_
    have hswap : Rearranged (stop + 2) nodes (nodes.swapIfInBounds 0 (stop + 1)) :=
      .swap (by omega) (by omega) (by omega)
    have hkeys : keyAt (nodes.swapIfInBounds 0 (stop + 1)) = exchange (keyAt nodes) 0 (stop + 1) :=
      keyAt_swap (by omega) (by omega)
    -- the greatest node stands at the end; only the root of the rest may be out of place
    have htop : ∀ i, i < stop + 1 →
        keyAt (nodes.swapIfInBounds 0 (stop + 1)) i ≤ keyAt nodes 0 := by
      intro i hi
      exact hswap.bound _ (fun k hk => hheap.root_le k hk) i (by omega)
    have hrest : HeapFrom (keyAt (nodes.swapIfInBounds 0 (stop + 1))) (stop + 1) 1 := by
      intro p c hp hc hcn
      have hpc : p < c := by
        unfold IsChild at hc
        omega
      rw [hkeys, exchange_of_ne _ (by omega) (by omega), exchange_of_ne _ (by omega) (by omega)]
      exact hheap p c (Nat.zero_le _) hc (by omega)
    refine .bind (sift_spec (stop + 1) (by rw [hswap.size_eq]; omega) hrest.sifting
      (Nat.le_refl _) (by omega)) ?_
    rintro mid ⟨hheap', hre⟩
    have hsize : mid.size = nodes.size := by rw [hre.size_eq, hswap.size_eq]
    have hlast : keyAt mid (stop + 1) = keyAt nodes 0 := by
      unfold keyAt
      rw [hre.tail _ (Nat.le_refl _)]
      have := congrFun hkeys (stop + 1)
      rwa [exchange_right] at this
    have htail : ∀ k, stop + 2 ≤ k → keyAt mid k = keyAt nodes k := by
      intro k hk
      unfold keyAt
      rw [hre.tail k (by omega), hswap.tail k hk]
    have hbelow : ∀ i, i < stop + 1 → keyAt mid i ≤ keyAt nodes 0 := hre.bound _ htop
    have hsrtd' : SortedFrom mid (stop + 1) := by
      intro i j hij hj hjn
      by_cases hjl : j = stop + 1
      · subst hjl
        rw [hlast]
        exact hbelow i hij
      · rw [htail j (by omega)]
        by_cases hi : stop + 2 ≤ i
        · rw [htail i hi]
          exact hsrtd i j hij (by omega) (by omega)
        · have h0 : keyAt nodes 0 ≤ keyAt nodes j := hsrtd 0 j (by omega) (by omega) (by omega)
          by_cases hil : i = stop + 1
          · rw [hil, hlast]
            exact h0
          · exact (hbelow i (by omega)).trans h0
    refine (ih (by omega) hheap' hsrtd').mono ?_
    rintro out ⟨hout, hperm⟩
    exact ⟨hout, hperm.trans (hre.perm.trans hswap.perm)⟩

end Sorting

/-! ## The tree of interval ends -/

section Tree

variable {σ ε : Type} {charge : Nat → StateT σ (Except ε) Unit}

/-- Every middle node carries a bound of the ends in its subtree. -/
inductive Indexed : List DebugNode → Prop
  | nil : Indexed []
  | split {left right : List DebugNode} {node : DebugNode}
      (hmid : left.length = (left.length + (right.length + 1)) / 2) (hleft : Indexed left)
      (hrt : Indexed right)
      (hends : ∀ n ∈ left ++ node :: right, n.range.stop ≤ node.maxEnd) :
      Indexed (left ++ node :: right)

/-- What `index` leaves alone. -/
def unindexed (node : DebugNode) : LocalLiveRange × Nat := (node.range, node.ordinal)

private theorem take_append_node {nodes right : List DebugNode}
    (h : nodes.drop (nodes.length / 2) = node :: right) :
    nodes = nodes.take (nodes.length / 2) ++ node :: right ∧
      (nodes.take (nodes.length / 2)).length = nodes.length / 2 ∧
      nodes.length = nodes.length / 2 + (right.length + 1) := by
  have hspl := take_append_drop (nodes.length / 2) nodes
  have hlen : (nodes.take (nodes.length / 2)).length = nodes.length / 2 := by
    rw [length_take]
    omega
  rw [h] at hspl
  refine ⟨hspl.symm, hlen, ?_⟩
  have hsum := congrArg List.length hspl
  rw [length_append, length_cons, hlen] at hsum
  exact hsum.symm

theorem index_spec (fuel : Nat) : ∀ {nodes : List DebugNode}, nodes.length ≤ fuel →
    Ensures (index charge fuel nodes) (fun out => Indexed out.1 ∧
      out.1.map unindexed = nodes.map unindexed ∧ ∀ n ∈ out.1, n.range.stop ≤ out.2) := by
  induction fuel with
  | zero =>
    intro nodes hlen
    obtain rfl : nodes = [] := length_eq_zero_iff.mp (by omega)
    exact .pure ⟨.nil, rfl, by simp⟩
  | succ fuel ih =>
    intro nodes hlen
    unfold index
    split
    · rename_i hdrop
      have hnil : nodes = [] := by
        rw [drop_eq_nil_iff] at hdrop
        exact length_eq_zero_iff.mp (by omega)
      subst hnil
      exact .pure ⟨.nil, rfl, by simp⟩
    · rename_i node right hdrop
      obtain ⟨hnds, hleft, hsum⟩ := take_append_node hdrop
      refine .seq ?_
      refine .bind (ih (by omega)) ?_
      rintro ⟨left', leftEnd⟩ ⟨hli, hlm, hle⟩
      refine .bind (ih (by omega)) ?_
      rintro ⟨right', rightEnd⟩ ⟨hri, hrm, hre⟩
      have hll := congrArg List.length hlm
      have hrl := congrArg List.length hrm
      simp only [length_map] at hll hrl
      have hends : ∀ n ∈ left' ++ { node with maxEnd := max (max node.range.stop leftEnd) rightEnd }
          :: right', n.range.stop ≤ max (max node.range.stop leftEnd) rightEnd := by
        intro n hn
        simp only [mem_append, mem_cons] at hn
        rcases hn with hn | rfl | hn
        · have := hle n hn
          simp only at this
          omega
        · simp only
          omega
        · have := hre n hn
          simp only at this
          omega
      refine .pure ⟨.split (by omega) hli hri hends, ?_, hends⟩
      rw [hnds]
      simp only [map_append, map_cons, hlm, hrm]
      simp [unindexed]

theorem visitOwn_spec {pc : Nat} (hst : node.range.start ≤ pc) :
    Ensures (visitOwn charge pc node)
      (fun own => own = ([node].filter (fun n => n.range.Covers pc)).map (·.range.slot)) := by
  unfold visitOwn
  by_cases hstop : pc < node.range.stop
  · rw [if_pos hstop]
    refine .seq (.pure ?_)
    simp [LocalLiveRange.Covers, hst, hstop]
  · rw [if_neg hstop]
    refine .pure ?_
    simp [LocalLiveRange.Covers, hstop]

/-- A query answers with the covering ranges, in the order of the nodes. -/
theorem visitNodes_spec (pc : Nat) (h : Indexed nodes) :
    ∀ {fuel : Nat}, nodes.length ≤ fuel →
    nodes.Pairwise (fun a b => a.range.start ≤ b.range.start) →
    Ensures (visitNodes charge pc fuel nodes)
      (fun slots => slots = (nodes.filter (fun n => n.range.Covers pc)).map (·.range.slot)) := by
  induction h with
  | nil =>
    intro fuel _ _
    cases fuel with
    | zero => exact .pure rfl
    | succ fuel => exact .pure rfl
  | @split left right node hmid hleft hrt hends ihl ihr =>
    intro fuel hlen hsrtd
    rw [length_append, length_cons] at hlen
    have hhalf : (left ++ node :: right).length / 2 = left.length := by
      rw [length_append, length_cons]
      omega
    obtain ⟨hsl, hsr, hcross⟩ := pairwise_append.mp hsrtd
    obtain ⟨hnode, hsr⟩ := pairwise_cons.mp hsr
    cases fuel with
    | zero => omega
    | succ fuel =>
      unfold visitNodes
      rw [hhalf, drop_left, take_left]
      refine .seq ?_
      by_cases hend : node.maxEnd ≤ pc
      · rw [if_pos hend]
        refine .pure ?_
        have hnone : (left ++ node :: right).filter (fun n => decide (n.range.Covers pc)) = [] := by
          rw [filter_eq_nil_iff]
          intro n hn
          have := hends n hn
          rw [decide_eq_true_eq, LocalLiveRange.Covers]
          omega
        rw [hnone]
        rfl
      · rw [if_neg hend]
        refine .bind (ihl (by omega) hsl) ?_
        rintro leftSlots rfl
        by_cases hst : node.range.start ≤ pc
        · rw [if_pos hst]
          refine .bind (visitOwn_spec hst) ?_
          rintro own rfl
          refine .bind (ihr (by omega) hsr) ?_
          rintro rightSlots rfl
          refine .pure ?_
          rw [← map_append, ← map_append, ← filter_append, ← filter_append]
          simp
        · rw [if_neg hst]
          refine .pure ?_
          have hnone : (node :: right).filter (fun n => decide (n.range.Covers pc)) = [] := by
            rw [filter_eq_nil_iff]
            intro n hn
            rw [decide_eq_true_eq, LocalLiveRange.Covers]
            rcases mem_cons.mp hn with rfl | hn
            · omega
            · have := hnode n hn
              omega
          rw [filter_append, hnone, append_nil]

end Tree

/-! ## Construction and queries -/

section Queries

variable {σ ε : Type} {charge : Nat → StateT σ (Except ε) Unit}

/-- An index of the ranges: their nodes that are not empty, sorted by start, as a tree. -/
structure IndexOf (ranges : List LocalLiveRange) (nodes : List DebugNode) : Prop where
  indexed : Indexed nodes
  sorted : nodes.Pairwise (fun a b => a.range.start ≤ b.range.start)
  ranges : (nodes.map (·.range)).Perm (ranges.filter (fun r => r.start < r.stop))

/-- The ranges that are not empty, each with its position in the list. -/
def numbered (ranges : List LocalLiveRange) (ordinal : Nat) : List (LocalLiveRange × Nat) :=
  (ranges.zipIdx ordinal).filter (fun r => r.1.start < r.1.stop)

theorem collect_spec (ranges : List LocalLiveRange) : ∀ {ordinal : Nat} {nodes : Array DebugNode},
    Ensures (collect charge ranges ordinal nodes) (fun out =>
      out.toList.map unindexed = nodes.toList.map unindexed ++ numbered ranges ordinal) := by
  induction ranges with
  | nil =>
    intro ordinal nodes
    exact .pure (by simp [numbered])
  | cons range ranges ih =>
    intro ordinal nodes
    refine .seq ?_
    by_cases hrng : range.start < range.stop
    · rw [if_pos hrng]
      refine ih.mono (fun out h => ?_)
      rw [h]
      simp [numbered, unindexed, hrng]
    · rw [if_neg hrng]
      refine ih.mono (fun out h => ?_)
      rw [h]
      simp [numbered, hrng]

/-- What construction leaves: a tree of the numbered ranges, sorted by start and position. -/
theorem new_nodes (ranges : List LocalLiveRange) :
    Ensures (new charge ranges) (fun nodes => Indexed nodes ∧
      nodes.Pairwise (fun a b => key a ≤ key b) ∧
      (nodes.map unindexed).Perm (numbered ranges 0)) := by
  unfold new
  refine .seq ?_
  refine .bind (collect_spec ranges) ?_
  intro nodes hnds
  have hheap : HeapFrom (keyAt nodes) nodes.size (nodes.size / 2) := by
    intro p c hp hc hcn
    unfold IsChild at hc
    omega
  refine .bind (heapify_spec _ (Nat.le_refl _) hheap) ?_
  rintro mid ⟨hmid, hre⟩
  have hsrtd : Ensures (extract charge (mid.size - 1) mid)
      (fun out => SortedFrom out 1 ∧ out.toList.Perm mid.toList) := by
    by_cases hsize : mid.size = 0
    · rw [hsize]
      refine .pure ⟨fun i j _ _ hj => ?_, .refl _⟩
      omega
    · refine extract_spec _ (by omega) ?_ (fun i j hij hj hjn => by omega)
      rw [Nat.sub_add_cancel (by omega), hre.size_eq]
      exact hmid
  refine .bind hsrtd ?_
  rintro out ⟨hsort, hperm⟩
  refine .bind (index_spec out.size (by simp)) ?_
  rintro ⟨tree, last⟩ ⟨hidxd, hsame, -⟩
  refine .pure ⟨hidxd, ?_, ?_⟩
  · -- the keys are read off what the indexing leaves alone
    have hkeys : (out.toList.map unindexed).Pairwise
        (fun a b => toLex (a.1.start, a.2) ≤ toLex (b.1.start, b.2)) := by
      rw [pairwise_map, pairwise_iff_getElem]
      intro i j hi hj hij
      have hkey := hsort i j hij (by omega) (by simpa using hj)
      unfold keyAt at hkey
      rw [getElem!_pos out i (by simpa using hi), getElem!_pos out j (by simpa using hj)] at hkey
      exact hkey
    rw [← hsame, pairwise_map] at hkeys
    exact hkeys
  · rw [hsame]
    have hall := (hperm.trans hre.perm).map unindexed
    rw [hnds] at hall
    simpa using hall

private theorem numbered_ranges (ranges : List LocalLiveRange) :
    (numbered ranges 0).map Prod.fst = ranges.filter (fun r => r.start < r.stop) := by
  have h := filter_map (f := Prod.fst) (p := fun r : LocalLiveRange => decide (r.start < r.stop))
    (l := ranges.zipIdx)
  rw [zipIdx_map_fst] at h
  rw [h]
  rfl

theorem new_spec (ranges : List LocalLiveRange) :
    Ensures (new charge ranges) (IndexOf ranges) := by
  refine (new_nodes ranges).mono ?_
  rintro nodes ⟨hidxd, hsrtd, hperm⟩
  refine ⟨hidxd, hsrtd.imp (fun {a b} hkey => ?_), ?_⟩
  · rcases Prod.Lex.le_iff.mp hkey with h | ⟨h, -⟩
    · exact le_of_lt h
    · exact le_of_eq h
  · have hrngs := hperm.map Prod.fst
    rw [numbered_ranges] at hrngs
    simpa [unindexed, Function.comp_def] using hrngs

variable {ranges : List LocalLiveRange}

/-- Every covering range of the function answers a query. -/
theorem visit_covers
    (h : IndexOf ranges nodes) (pc : Nat) :
    Ensures (visit charge nodes pc)
      (fun slots => ∀ range ∈ ranges, range.Covers pc → range.slot ∈ slots) := by
  refine (visitNodes_spec pc h.indexed (Nat.le_refl _) h.sorted).mono ?_
  rintro slots rfl range hrng hcovs
  have hnonempty : range ∈ ranges.filter (fun r => r.start < r.stop) := by
    rw [mem_filter]
    refine ⟨hrng, ?_⟩
    unfold LocalLiveRange.Covers at hcovs
    simp only [decide_eq_true_eq]
    omega
  obtain ⟨node, hnode, rfl⟩ := mem_map.mp (h.ranges.mem_iff.mpr hnonempty)
  exact mem_map.mpr ⟨node, mem_filter.mpr ⟨hnode, by simpa using hcovs⟩, rfl⟩

/-- The answer to a query: the slots of the covering ranges, each range once, by start and then by
position in the list. -/
def Answers (ranges : List LocalLiveRange) (pc : Nat) (slots : List Slot) : Prop :=
  ∃ found : List (LocalLiveRange × Nat),
    found.Perm (ranges.zipIdx.filter (fun r => r.1.Covers pc)) ∧
    found.Pairwise (fun a b => toLex (a.1.start, a.2) < toLex (b.1.start, b.2)) ∧
    slots = found.map (·.1.slot)

/-- The covering ranges are among those that are not empty. -/
private theorem numbered_covers (ranges : List LocalLiveRange) (pc : Nat) :
    (numbered ranges 0).filter (fun r => r.1.Covers pc) =
      ranges.zipIdx.filter (fun r => r.1.Covers pc) := by
  unfold numbered
  rw [filter_filter]
  refine filter_congr (fun r _ => ?_)
  have himp : r.1.Covers pc → r.1.start < r.1.stop := by
    unfold LocalLiveRange.Covers
    omega
  by_cases hcovs : r.1.Covers pc
  · simp [hcovs, himp hcovs]
  · simp [hcovs]

/-- Two nodes of one index have different positions, so their keys differ. -/
private theorem keys_ne
    (h : (nodes.map unindexed).Perm (numbered ranges 0)) :
    nodes.Pairwise (fun a b => key a ≠ key b) := by
  have hnd : ((nodes.map unindexed).map Prod.snd).Nodup := by
    refine (h.map Prod.snd).nodup_iff.mpr ?_
    refine (filter_sublist.map Prod.snd).nodup ?_
    rw [zipIdx_map_snd]
    exact nodup_range'
  rw [map_map, List.Nodup, pairwise_map] at hnd
  refine hnd.imp (fun {a b} hne heq => hne ?_)
  exact congrArg (fun k => (ofLex k).2) heq

theorem visit_answers {pc : Nat}
    (hidxd : Indexed nodes) (hsrtd : nodes.Pairwise (fun a b => key a ≤ key b))
    (hperm : (nodes.map unindexed).Perm (numbered ranges 0)) :
    Ensures (visit charge nodes pc) (Answers ranges pc) := by
  have hstarts : nodes.Pairwise (fun a b => a.range.start ≤ b.range.start) := by
    refine hsrtd.imp (fun {a b} hkey => ?_)
    rcases Prod.Lex.le_iff.mp hkey with h | ⟨h, -⟩
    · exact le_of_lt h
    · exact le_of_eq h
  refine (visitNodes_spec pc hidxd (Nat.le_refl _) hstarts).mono ?_
  rintro slots rfl
  refine ⟨(nodes.filter (fun n => n.range.Covers pc)).map unindexed, ?_, ?_, by simp [unindexed]⟩
  · have hfilt := hperm.filter (fun r => decide (r.1.Covers pc))
    rw [numbered_covers, filter_map] at hfilt
    exact hfilt
  · have hstrc := hsrtd.and (keys_ne hperm)
    rw [pairwise_map]
    refine (hstrc.sublist filter_sublist).imp (fun {a b} hkey => ?_)
    exact lt_of_le_of_ne hkey.1 hkey.2

end Queries

/-! ## Where a computation can stop -/

section Charging

variable {σ ε : Type} {charge : Nat → StateT σ (Except ε) Unit} {E : ε → Prop}
  (hchrg : ∀ n, Fails (charge n) E)

include hchrg

theorem sift_fails (len fuel : Nat) : ∀ (nodes : Array DebugNode) (root : Nat),
    Fails (sift charge len fuel nodes root) E := by
  induction fuel with
  | zero => exact fun _ _ => .pure
  | succ fuel ih =>
    intro nodes root
    unfold sift
    split
    · refine .seq (hchrg 3) (fun _ => ?_)
      generalize (if root * 2 + 2 < len ∧ key nodes[root * 2 + 1]! < key nodes[root * 2 + 2]!
        then root * 2 + 2 else root * 2 + 1) = child
      dsimp only
      split
      · exact .pure
      · exact ih _ _
    · exact .pure

theorem collect_fails (ranges : List LocalLiveRange) : ∀ (ordinal : Nat) (nodes : Array DebugNode),
    Fails (collect charge ranges ordinal nodes) E := by
  induction ranges with
  | nil => exact fun _ _ => .pure
  | cons range ranges ih => exact fun _ _ => .seq (hchrg 1) (fun _ => ih _ _)

theorem heapify_fails (len count : Nat) : ∀ (nodes : Array DebugNode),
    Fails (heapify charge len count nodes) E := by
  induction count with
  | zero => exact fun _ => .pure
  | succ root ih => exact fun _ => .seq (sift_fails hchrg len len _ root) (fun _ => ih _)

theorem extract_fails (stop : Nat) : ∀ (nodes : Array DebugNode),
    Fails (extract charge stop nodes) E := by
  induction stop with
  | zero => exact fun _ => .pure
  | succ stop ih =>
    intro nodes
    unfold extract
    refine .seq (hchrg 1) (fun _ => ?_)
    exact .seq (sift_fails hchrg _ _ _ _) (fun _ => ih _)

theorem index_fails (fuel : Nat) : ∀ (nodes : List DebugNode),
    Fails (index charge fuel nodes) E := by
  induction fuel with
  | zero => exact fun _ => .pure
  | succ fuel ih =>
    intro nodes
    unfold index
    split
    · exact .pure
    · refine .seq (hchrg 1) (fun _ => ?_)
      refine .seq (ih _) (fun _ => ?_)
      exact .seq (ih _) (fun _ => .pure)

theorem new_fails (ranges : List LocalLiveRange) : Fails (new charge ranges) E := by
  unfold new
  refine .seq (hchrg _) (fun _ => ?_)
  refine .seq (collect_fails hchrg _ _ _) (fun _ => ?_)
  refine .seq (heapify_fails hchrg _ _ _) (fun _ => ?_)
  refine .seq (extract_fails hchrg _ _) (fun _ => ?_)
  exact .seq (index_fails hchrg _ _) (fun _ => .pure)

theorem visitNodes_fails (pc fuel : Nat) : ∀ (nodes : List DebugNode),
    Fails (visitNodes charge pc fuel nodes) E := by
  induction fuel with
  | zero => exact fun _ => .pure
  | succ fuel ih =>
    intro nodes
    unfold visitNodes
    split
    · exact .pure
    · refine .seq (hchrg 1) (fun _ => ?_)
      split
      · exact .pure
      · refine .seq (ih _) (fun _ => ?_)
        split
        · refine .seq ?_ (fun _ => .seq (ih _) (fun _ => .pure))
          unfold visitOwn
          split
          · exact .seq (hchrg 1) (fun _ => .pure)
          · exact .pure
        · exact .pure

end Charging

/-- Whatever the callers charge, an index of the ranges answers every query with exactly the
covering ranges, and construction and queries stop only with errors of their own caller. -/
theorem visit_exact {σ ε σ' ε' : Type} {charge : Nat → StateT σ (Except ε) Unit}
    {charge' : Nat → StateT σ' (Except ε') Unit} {E : ε → Prop} {E' : ε' → Prop}
    (hcharge : ∀ n, Fails (charge n) E) (hcharge' : ∀ n, Fails (charge' n) E')
    (ranges : List LocalLiveRange) :
    Fails (new charge ranges) E ∧
    Ensures (new charge ranges) (fun nodes => ∀ pc,
      Ensures (visit charge' nodes pc) (Answers ranges pc) ∧ Fails (visit charge' nodes pc) E') := by
  refine ⟨new_fails hcharge ranges, (new_nodes ranges).mono ?_⟩
  rintro nodes ⟨hidxd, hsrtd, hperm⟩ pc
  exact ⟨visit_answers hidxd hsrtd hperm, visitNodes_fails hcharge' pc _ _⟩

/-- Construction and a query over three ranges, charging nothing. -/
theorem visit_exact_three :
    let free : Nat → StateT Unit (Except Empty) Unit := fun _ => pure ()
    let ranges : List LocalLiveRange := [⟨7, 4, 9⟩, ⟨5, 1, 6⟩, ⟨3, 4, 5⟩]
    ((new free ranges >>= fun nodes => visit free nodes 4).run ()).toOption.map Prod.fst =
      some [5, 7, 3] ∧ Ensures (new free ranges >>= fun nodes => visit free nodes 4)
        (Answers ranges 4) := by
  refine ⟨by decide, ?_⟩
  have hfree : ∀ n : Nat, Fails ((fun _ => pure () : Nat → StateT Unit (Except Empty) Unit) n)
    (fun _ => False) := fun _ => .pure
  exact .bind (visit_exact hfree hfree _).2 (fun _ h => (h 4).1)

end DebugAvailability

end Kagari.Bytecode
