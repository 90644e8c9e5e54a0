import Kagari.Bytecode.FlowSound

/-!
# The graph against the code

The flow check's basic blocks and the control flow of the instructions themselves (`Next`): every
program counter that some path from the first instruction reaches lies in a reachable block, and
control goes down a block or along one of its edges (`Layout.step`). So what the flow check says of the
paths through its graph holds of the paths over the instructions (`verifyFlow_sound`).
-/

namespace Kagari.Bytecode

open Lib List

variable {leaders : List Nat} {pc : Nat}

section Graph

variable {P : Type} (function : BytecodeFunction P)

/-- Control goes from the instruction at `pc` to the one at `pc'`. -/
def Next (pc pc' : Nat) : Prop :=
  pc' < function.instructions.length ∧ ∃ instruction, function.instructions[pc]? = some instruction ∧
    pc' ∈ (branchTargets instruction).getD [pc + 1]

/-- Control gets from the first instruction to the one at `pc`. -/
def Executes (pc : Nat) : Prop :=
  0 < function.instructions.length ∧ Relation.ReflTransGen (Next function) 0 pc

/-! ## Leaders -/

theorem mem_insertLeader {pc x : Nat} :
    x ∈ insertLeader pc leaders ↔ x = pc ∨ x ∈ leaders := by
  unfold insertLeader
  split
  · rename_i hmem
    constructor
    · exact .inr
    · rintro (rfl | h)
      · exact hmem
      · exact h
  · rw [mem_orderedInsert]

theorem insertLeader_sorted (h : leaders.Pairwise (· < ·)) :
    (insertLeader pc leaders).Pairwise (· < ·) := by
  unfold insertLeader
  split
  · exact h
  · rename_i hnew
    have hle : leaders.Pairwise (· ≤ ·) := h.imp Nat.le_of_lt
    have hsrtd := hle.orderedInsert pc leaders
    have hnd : (leaders.orderedInsert (· ≤ ·) pc).Nodup :=
      (perm_orderedInsert _ pc leaders).nodup_iff.mpr
        (nodup_cons.mpr ⟨hnew, h.imp Nat.ne_of_lt⟩)
    exact (hsrtd.and hnd).imp fun {a b} h => Nat.lt_of_le_of_ne h.1 h.2

theorem mem_foldl_insertLeader {x : Nat} (targets : List Nat) : ∀ {leaders : List Nat},
    x ∈ targets.foldl (fun leaders target => insertLeader target leaders) leaders ↔
      x ∈ targets ∨ x ∈ leaders := by
  induction targets with
  | nil => simp
  | cons target targets ih =>
    intro leaders
    rw [foldl_cons, ih, mem_insertLeader, mem_cons]
    tauto

theorem foldl_insertLeader_sorted (targets : List Nat) : ∀ {leaders : List Nat},
    leaders.Pairwise (· < ·) →
      (targets.foldl (fun leaders target => insertLeader target leaders) leaders).Pairwise (· < ·) := by
  induction targets with
  | nil => exact fun h => h
  | cons target targets ih => exact fun h => ih (insertLeader_sorted h)

/-- The leaders that the instructions from `pc` on ask for. -/
def Leads (len : Nat) (code : List (BytecodeInstruction P)) (pc : Nat) (leaders : List Nat) : Prop :=
  ∀ k instruction targets, code[k]? = some instruction → branchTargets instruction = some targets →
    (∀ target ∈ targets, target ∈ leaders) ∧ (pc + k + 1 < len → pc + k + 1 ∈ leaders)

theorem collectLeaders_spec (len : Nat) (code : List (BytecodeInstruction P)) :
    ∀ (pc : Nat) (leaders : List Nat), leaders.Pairwise (· < ·) →
      Ensures (collectLeaders function len code pc leaders) (fun out =>
        out.Pairwise (· < ·) ∧ leaders ⊆ out ∧ Leads len code pc out) := by
  induction code with
  | nil => exact fun pc leaders h => .pure ⟨h, List.Subset.refl _, by simp [Leads]⟩
  | cons instruction code ih =>
    intro pc leaders h
    refine .seq ?_
    have hrest : ∀ {out : List Nat}, Leads len code (pc + 1) out →
        (∀ targets, branchTargets instruction = some targets →
          (∀ target ∈ targets, target ∈ out) ∧ (pc + 1 < len → pc + 1 ∈ out)) →
        Leads len (instruction :: code) pc out := by
      intro out hcode hfst k i targets hk htgts
      cases k with
      | zero =>
        cases hk
        exact hfst targets htgts
      | succ k =>
        have hlat := hcode k i targets hk htgts
        rw [show pc + (k + 1) + 1 = pc + 1 + k + 1 by omega]
        exact hlat
    split
    · rename_i hnone
      refine (ih (pc + 1) leaders h).mono ?_
      rintro out ⟨hsrtd, hsub, hcode⟩
      refine ⟨hsrtd, hsub, hrest hcode (fun targets htgts => ?_)⟩
      rw [hnone] at htgts
      cases htgts
    · rename_i targets htgts
      dsimp only
      have hall : ∀ {x}, x ∈ targets ∨ x ∈ leaders ↔
          x ∈ targets.foldl (fun leaders target => insertLeader target leaders) leaders :=
        (mem_foldl_insertLeader targets).symm
      have hst := foldl_insertLeader_sorted targets h
      by_cases hlt : pc + 1 < len
      · rw [if_pos hlt]
        refine (ih (pc + 1) _ (insertLeader_sorted hst)).mono ?_
        rintro out ⟨hsrtd, hsub, hcode⟩
        refine ⟨hsrtd, fun x hx => hsub (mem_insertLeader.mpr (.inr (hall.mp (.inr hx)))),
          hrest hcode (fun found hfnd => ?_)⟩
        cases htgts.symm.trans hfnd
        exact ⟨fun t ht => hsub (mem_insertLeader.mpr (.inr (hall.mp (.inl ht)))),
          fun _ => hsub (mem_insertLeader.mpr (.inl rfl))⟩
      · rw [if_neg hlt]
        refine (ih (pc + 1) _ hst).mono ?_
        rintro out ⟨hsrtd, hsub, hcode⟩
        refine ⟨hsrtd, fun x hx => hsub (hall.mp (.inr hx)), hrest hcode (fun found hfnd => ?_)⟩
        cases htgts.symm.trans hfnd
        exact ⟨fun t ht => hsub (hall.mp (.inl ht)), fun h => absurd h hlt⟩

/-! ## Blocks -/

theorem successor_leader (leaders : List Nat) (pc : Nat) :
    Ensures (successor leaders pc) (fun index => leaders[index]? = some pc) := by
  unfold successor
  split
  · rename_i index hidx
    refine .pure ?_
    rw [List.idxOf?, findIdx?_eq_some_iff_getElem] at hidx
    obtain ⟨hlt, heq, -⟩ := hidx
    rw [getElem?_eq_getElem hlt]
    simpa using heq
  · exact .throw

theorem successorsOf_leaders (leaders : List Nat) (stop : Nat) (last : BytecodeInstruction P) :
    Ensures (successorsOf leaders stop last) (fun edges =>
      ∀ target ∈ (branchTargets last).getD [stop], ∃ e ∈ edges, leaders[e]? = some target) := by
  have hall : ∀ targets : List Nat, Ensures (targets.mapM (successor leaders)) (fun edges =>
      ∀ target ∈ targets, ∃ e ∈ edges, leaders[e]? = some target) := by
    intro targets
    induction targets with
    | nil => exact .pure (by simp)
    | cons target targets ih =>
      rw [mapM_cons]
      refine .bind (successor_leader leaders target) (fun index hidx => ?_)
      refine .bind ih (fun edges hedg => .pure ?_)
      refine forall_mem_cons.mpr ⟨⟨index, by simp, hidx⟩, fun t ht => ?_⟩
      obtain ⟨e, he, hldr⟩ := hedg t ht
      exact ⟨e, mem_cons_of_mem _ he, hldr⟩
  unfold successorsOf
  split
  · rename_i targets htgts
    rw [htgts]
    exact hall targets
  · rename_i hnone
    rw [hnone]
    refine .bind (successor_leader leaders stop) (fun index hidx => .pure ?_)
    simpa using hidx

/-- A slot that the instructions of a part of a block read before they write it. -/
def ReadFirst (pcs : List Nat) (slot : Slot) : Prop :=
  ∃ before pc after, pcs = before ++ pc :: after ∧ Reads function pc slot ∧
    ∀ earlier ∈ before, ¬ Writes function earlier slot

variable {function} in
theorem ReadFirst.cons {pc : Nat} {pcs : List Nat} {slot : Slot} :
    ReadFirst function (pc :: pcs) slot ↔
      Reads function pc slot ∨ (¬ Writes function pc slot ∧ ReadFirst function pcs slot) := by
  constructor
  · rintro ⟨before, found, after, hspl, hread, hkept⟩
    cases before with
    | nil =>
      obtain ⟨rfl, -⟩ := cons.inj hspl
      exact .inl hread
    | cons first before =>
      obtain ⟨rfl, htail⟩ := cons.inj hspl
      exact .inr ⟨hkept pc (by simp), before, found, after, htail, hread,
        fun e he => hkept e (mem_cons_of_mem _ he)⟩
  · rintro (hread | ⟨hkept, before, found, after, hspl, hread, hrest⟩)
    · exact ⟨[], pc, pcs, rfl, hread, by simp⟩
    · exact ⟨pc :: before, found, after, by rw [hspl]; rfl, hread,
        forall_mem_cons.mpr ⟨hkept, hrest⟩⟩

variable {availability : List DebugNode}
  (havl : DebugAvailability.IndexOf function.metadata.debug.localLiveRanges availability)

include havl

/-- A block's uses have what it reads before it writes it. -/
theorem scanBlock_uses {w : Nat} (pcs : List Nat) : ∀ uses defines : BitVec w,
    Ensures (scanBlock function availability pcs uses defines) (fun out => ∀ slot < w,
      (BitSet.contains uses slot = true → BitSet.contains out.1 slot = true) ∧
      (BitSet.contains defines slot = false → ReadFirst function pcs slot →
        BitSet.contains out.1 slot = true)) := by
  induction pcs with
  | nil =>
    intro uses defines
    refine .pure (fun slot _ => ⟨fun h => h, fun _ hread => ?_⟩)
    obtain ⟨before, pc, after, hspl, -⟩ := hread
    simp at hspl
  | cons pc pcs ih =>
    intro uses defines
    refine .bind (inputs_spec function havl pc) (fun slots hsl => .seq ?_)
    refine .bind (instructionAt_spec function pc) (fun instruction hget => ?_)
    refine (ih _ _).mono (fun out hout slot hlt => ?_)
    obtain ⟨hkeep, hlat⟩ := hout slot hlt
    have hused : ∀ (slots : List Slot) (uses : BitVec w),
        BitSet.contains (slots.foldl (fun uses slot =>
          if BitSet.contains defines slot then uses else BitSet.insert uses slot) uses) slot = true ↔
        BitSet.contains uses slot = true ∨
          (slot ∈ slots ∧ BitSet.contains defines slot = false) := by
      intro slots
      induction slots with
      | nil => simp
      | cons first slots ihs =>
        intro uses
        rw [foldl_cons, ihs, mem_cons]
        by_cases hfst : BitSet.contains defines first = true
        · rw [if_pos hfst]
          constructor
          · exact fun h => h.imp_right fun h => ⟨.inr h.1, h.2⟩
          · rintro (h | ⟨rfl | hmem, hnew⟩)
            · exact .inl h
            · rw [hfst] at hnew
              cases hnew
            · exact .inr ⟨hmem, hnew⟩
        · rw [if_neg hfst, BitSet.contains_insert]
          constructor
          · rintro ((h | ⟨rfl, -⟩) | ⟨hmem, hnew⟩)
            · exact .inl h
            · exact .inr ⟨.inl rfl, by simpa using hfst⟩
            · exact .inr ⟨.inr hmem, hnew⟩
          · rintro (h | ⟨rfl | hmem, hnew⟩)
            · exact .inl (.inl h)
            · exact .inl (.inr ⟨rfl, hlt⟩)
            · exact .inr ⟨hmem, hnew⟩
    refine ⟨fun h => hkeep ((hused slots uses).mpr (.inl h)), fun hnew hread => ?_⟩
    rcases ReadFirst.cons.mp hread with hread | ⟨hkept, hrest⟩
    · exact hkeep ((hused slots uses).mpr (.inr ⟨hsl slot hread, hnew⟩))
    · refine hlat ?_ hrest
      -- the instruction writes another slot, or none
      by_contra hdefd
      rcases contains_output hget (by simpa using hdefd) with h | h
      · rw [hnew] at h
        cases h
      · exact hkept h

omit havl

/-- One block of the graph over the leaders: where it ends and where its last instruction leads. -/
structure Laid {w : Nat} (leaders : List Nat) (index : Nat) (block : Block w) : Prop where
  start : leaders[index]? = some block.start
  stop : block.stop = (leaders[index + 1]?).getD function.instructions.length
  inside : block.stop ≤ function.instructions.length
  edges : ∃ last, function.instructions[block.stop - 1]? = some last ∧
    ∀ target ∈ (branchTargets last).getD [block.stop],
      ∃ e ∈ block.successors, leaders[e]? = some target
  uses : ∀ slot < w, ReadFirst function block.pcs slot → BitSet.contains block.uses slot = true

include havl

theorem buildBlocks_laid (leaders rest : List Nat) : ∀ index, leaders.drop index = rest →
    Ensures (buildBlocks function availability leaders rest) (fun blocks =>
      blocks.length = rest.length ∧
      ∀ j block, blocks[j]? = some block → Laid function leaders (index + j) block) := by
  induction rest with
  | nil => exact fun index _ => .pure ⟨rfl, by simp⟩
  | cons start rest ih =>
    intro index hdrop
    have hldr : leaders[index]? = some start := by
      have h := congrArg (·[0]?) hdrop
      simpa using h
    have htail : leaders.drop (index + 1) = rest := by
      have h := congrArg List.tail hdrop
      simpa using h
    have hnext : rest.headD function.instructions.length =
        (leaders[index + 1]?).getD function.instructions.length := by
      rw [← htail, List.headD_eq_head?_getD, List.head?_drop]
    refine .bind (scanBlock_uses function havl _ 0 0) ?_
    rintro ⟨uses, defines⟩ huses
    dsimp only
    split
    · exact .throw
    · rename_i hstop
      refine .bind (instructionAt_spec function _) (fun last hlast => ?_)
      refine .bind (successorsOf_leaders leaders _ last) (fun edges hedg => ?_)
      refine .bind (ih (index + 1) htail) ?_
      rintro blocks ⟨hlen, hblks⟩
      refine .pure ⟨congrArg (· + 1) hlen, fun j block hj => ?_⟩
      cases j with
      | zero =>
        cases hj
        have hin : rest.headD function.instructions.length ≤ function.instructions.length := by
          have hlt := (List.getElem?_eq_some_iff.mp hlast).1
          omega
        refine ⟨hldr, hnext, hin, ⟨last, hlast, hedg⟩, fun slot hlt hread => ?_⟩
        refine (huses slot hlt).2 (by simp) ?_
        rw [Nat.min_eq_left hin]
        exact hread
      | succ j =>
        have h := hblks j block hj
        rw [show index + 1 + j = index + (j + 1) by omega] at h
        exact h

omit havl

/-- The blocks lie between the leaders, one for each, and every jump leads to a leader. -/
structure Layout {w : Nat} (leaders : List Nat) (blocks : List (Block w)) : Prop where
  sorted : leaders.Pairwise (· < ·)
  entry : 0 ∈ leaders
  leads : Leads function.instructions.length function.instructions 0 leaders
  length : blocks.length = leaders.length
  laid : ∀ b block, blocks[b]? = some block → Laid function leaders b block

variable {function} in
theorem Laid.congr {w : Nat} {b : Nat} {block block' : Block w}
    (h : Laid function leaders b block) (hshp : block'.shape = block.shape)
    (huses : block'.uses = block.uses) : Laid function leaders b block' := by
  have hst : block'.start = block.start := congrArg (·.1) hshp
  have hstop : block'.stop = block.stop := congrArg (·.2.1) hshp
  have hedg : block'.successors = block.successors := congrArg (·.2.2.1) hshp
  refine ⟨?_, ?_, ?_, ?_, ?_⟩
  · rw [hst]
    exact h.start
  · rw [hstop]
    exact h.stop
  · rw [hstop]
    exact h.inside
  · rw [hstop, hedg]
    exact h.edges
  · rw [huses]
    unfold Block.pcs
    rw [hst, hstop]
    exact h.uses

include havl in
theorem graph_layout :
    Ensures (graph function availability) (fun blocks => ∃ leaders, Layout function leaders blocks) := by
  refine .bind (collectLeaders_spec function _ _ 0 [0] (pairwise_singleton _ 0)) ?_
  rintro leaders ⟨hsrtd, hsub, hleads⟩
  dsimp only
  split
  · exact .throw
  · refine .bind (buildBlocks_laid function havl leaders leaders 0 rfl) ?_
    rintro blocks ⟨hlen, hlaid⟩
    refine .pure ⟨leaders, hsrtd, hsub (by simp), hleads, ?_, fun b block hb => ?_⟩
    · rw [length_mapIdx, hlen]
    · rw [getElem?_mapIdx] at hb
      obtain ⟨source, hsrc, rfl⟩ := Option.map_eq_some_iff.mp hb
      have h := hlaid b source hsrc
      rw [Nat.zero_add] at h
      exact ⟨h.start, h.stop, h.inside, h.edges, h.uses⟩

namespace Layout

variable {function} {w : Nat} {leaders : List Nat} {blocks : List (Block w)}

/-- A block with the program counter inside it. -/
theorem split {block : Block w} {before after : List Nat} {pc : Nat}
    (hspl : block.pcs = before ++ pc :: after) :
    block.start ≤ pc ∧ pc < block.stop ∧ after = List.range' (pc + 1) (block.stop - (pc + 1)) := by
  obtain ⟨k, hk, -, hrest⟩ := List.range'_eq_append_iff.mp hspl
  obtain ⟨hpc, hlt, haft⟩ := List.range'_eq_cons_iff.mp hrest.symm
  refine ⟨by omega, by omega, ?_⟩
  rw [haft]
  congr 1
  omega

/-- No leader lies inside a block. -/
theorem no_leader (h : Layout function leaders blocks) {b : Nat} {block : Block w}
    (hb : blocks[b]? = some block) (hpc : pc ∈ leaders) (hst : block.start < pc)
    (hstop : pc < block.stop) : False := by
  have hlaid := h.laid b block hb
  obtain ⟨k, hk, rfl⟩ := List.mem_iff_getElem.mp hpc
  obtain ⟨hb', hldr⟩ := List.getElem?_eq_some_iff.mp hlaid.start
  have hpos := List.pairwise_iff_getElem.mp h.sorted
  -- its index is after the block's and not after the next block's
  have haft : b < k := by
    rcases Nat.lt_trichotomy k b with hlt | rfl | hgt
    · have := hpos k b hk hb' hlt
      omega
    · omega
    · exact hgt
  have hnext : b + 1 < leaders.length := by omega
  have hend := hlaid.stop
  rw [List.getElem?_eq_getElem hnext, Option.getD_some] at hend
  rcases Nat.lt_trichotomy k (b + 1) with hlt | rfl | hgt
  · omega
  · omega
  · have := hpos (b + 1) k hnext hk hgt
    omega

/-- The block of a leader that is an instruction starts with it. -/
theorem block_of_leader (h : Layout function leaders blocks) {e pc : Nat}
    (he : leaders[e]? = some pc) (hpc : pc < function.instructions.length) :
    ∃ block rest, blocks[e]? = some block ∧ block.pcs = pc :: rest := by
  obtain ⟨hlt, hget⟩ := List.getElem?_eq_some_iff.mp he
  obtain ⟨block, hblk⟩ : ∃ block, blocks[e]? = some block :=
    ⟨_, List.getElem?_eq_getElem (h.length ▸ hlt)⟩
  have hlaid := h.laid e _ hblk
  have hst := Option.some.inj (hlaid.start.symm.trans he)
  have hstop : pc < block.stop := by
    rw [hlaid.stop]
    by_cases hnext : e + 1 < leaders.length
    · rw [List.getElem?_eq_getElem hnext, Option.getD_some, ← hget]
      exact List.pairwise_iff_getElem.mp h.sorted e (e + 1) hlt hnext (Nat.lt_succ_self e)
    · rw [List.getElem?_eq_none (by omega), Option.getD_none]
      exact hpc
  refine ⟨block, List.range' (pc + 1) (block.stop - pc - 1), hblk, ?_⟩
  unfold Block.pcs
  rw [hst]
  exact List.range'_eq_cons_iff.mpr ⟨rfl, by omega, rfl⟩

/-- Control goes down a block, or along one of its edges to the start of another. -/
theorem step (h : Layout function leaders blocks) {b : Nat} {block : Block w}
    (hb : blocks[b]? = some block) {before after : List Nat} {pc pc' : Nat}
    (hspl : block.pcs = before ++ pc :: after) (hnext : Next function pc pc') :
    (∃ rest, after = pc' :: rest) ∨
      (after = [] ∧ ∃ e ∈ block.successors, ∃ block' rest, blocks[e]? = some block' ∧
        block'.pcs = pc' :: rest) := by
  have hlaid := h.laid b block hb
  obtain ⟨hst, hstop, rfl⟩ := split hspl
  obtain ⟨hin, instruction, hget, htgt⟩ := hnext
  by_cases hlast : pc + 1 < block.stop
  · refine .inl ⟨_, List.range'_eq_cons_iff.mpr ⟨?_, by omega, rfl⟩⟩
    -- a control instruction would have made the next program counter a leader
    cases htgts : branchTargets instruction with
    | none =>
      rw [htgts] at htgt
      exact (mem_singleton.mp htgt).symm
    | some targets =>
      have hldr := (h.leads pc instruction targets hget htgts).2
      rw [Nat.zero_add] at hldr
      have hlt := hlaid.inside
      exact (h.no_leader hb (hldr (by omega)) (by omega) hlast).elim
  · have hend : block.stop = pc + 1 := by omega
    obtain ⟨last, hlastGet, hedg⟩ := hlaid.edges
    rw [hend, Nat.add_sub_cancel, hget] at hlastGet
    cases hlastGet
    rw [hend] at hedg
    obtain ⟨e, he, hldr⟩ := hedg pc' htgt
    refine .inr ⟨by rw [hend, Nat.sub_self]; rfl, e, he, h.block_of_leader hldr hin⟩

/-- A path over the instructions runs the blocks of a path through the graph. -/
theorem walk (h : Layout function leaders blocks) {passed : List Nat}
    (hpath : Dataflow.Walk (Next function) 0 pc passed) :
    ∃ b block trace before after, FlowPath blocks b trace ∧ blocks[b]? = some block ∧
      block.pcs = before ++ pc :: after ∧ passed = trace ++ before := by
  induction hpath with
  | entry =>
    have hfst : leaders[0]? = some 0 := by
      obtain ⟨k, hk, hget⟩ := List.mem_iff_getElem.mp h.entry
      cases k with
      | zero => rw [List.getElem?_eq_getElem hk, hget]
      | succ k =>
        have := List.pairwise_iff_getElem.mp h.sorted 0 (k + 1) (by omega) hk (Nat.succ_pos k)
        omega
    -- the first block ends with an instruction
    have hpos : 0 < function.instructions.length := by
      obtain ⟨hlt, -⟩ := List.getElem?_eq_some_iff.mp hfst
      obtain ⟨last, hlast, -⟩ := (h.laid 0 _ (List.getElem?_eq_getElem (h.length ▸ hlt))).edges
      exact Nat.zero_lt_of_lt (List.getElem?_eq_some_iff.mp hlast).1
    obtain ⟨block, rest, hblk, hpcs⟩ := h.block_of_leader hfst hpos
    exact ⟨0, block, [], [], rest, .entry, hblk, hpcs, rfl⟩
  | @step source target _ _ hnext ih =>
    obtain ⟨b, block, trace, before, after, hflow, hblk, hspl, rfl⟩ := ih
    rcases h.step hblk hspl hnext with ⟨rest, rfl⟩ | ⟨rfl, e, he, block', rest, hblk', hpcs⟩
    · exact ⟨b, block, trace, before ++ [source], rest, hflow, hblk, by rw [hspl]; simp, by simp⟩
    · refine ⟨e, block', _, [], rest, .step hflow hblk he, hblk', hpcs, ?_⟩
      rw [hspl]
      simp

/-- What control gets to lies in a block that the graph's edges get to. -/
theorem executes (h : Layout function leaders blocks) (hpc : Executes function pc) :
    ∃ b block before after, Reaches blocks b ∧ blocks[b]? = some block ∧
      block.pcs = before ++ pc :: after := by
  obtain ⟨-, hpath⟩ := hpc
  have hwalk : ∃ passed, Dataflow.Walk (Next function) 0 pc passed := by
    induction hpath with
    | refl => exact ⟨[], .entry⟩
    | tail _ hnext ih =>
      obtain ⟨passed, hpass⟩ := ih
      exact ⟨_, .step hpass hnext⟩
  obtain ⟨passed, hpass⟩ := hwalk
  obtain ⟨b, block, trace, before, after, hflow, hblk, hspl, -⟩ := h.walk hpass
  exact ⟨b, block, before, after, hflow.reaches, hblk, hspl⟩

end Layout

/-- The flow check is sound: on every path through the graph that the check built, and on every path
over the instructions, an operand slot or a slot of an active debug range is a parameter or was written before
it is read. The blocks hold the greatest solution of the initialization equations, and so does what the solver
returns for any other order of the reachable blocks. -/
theorem verifyFlow_sound {budget budget' : FlowBudget} {result : FlowResult (width function)}
    (h : (verifyFlow function).run budget = .ok (result, budget')) :
    ∃ graph, Built function graph ∧
      result.blocks.map Block.shape = graph.map Block.shape ∧
      PathsDefined function graph ∧
      (∀ pc passed, Dataflow.Walk (Next function) 0 pc passed → ∀ slot, Reads function pc slot →
        Defined function passed slot) ∧
      assignment result.blocks = (equations function result.blocks).gfp ∧
      ∀ order blocks, SameGraph blocks result.blocks →
        (∀ block ∈ blocks, block.initialized = BitVec.allOnes _) →
        (∀ b, b ∈ order ↔ isReachable blocks b = true) →
        Ensures (propagate function order .initialization blocks)
          (fun out => assignment out = (equations function result.blocks).gfp) := by
  obtain ⟨graph, availability, havail, ⟨start, stop, hrun⟩, hw, hsol, hpth⟩ :=
    verifyFlow_spec function budget result budget' h
  obtain ⟨leaders, hlay⟩ := graph_layout function havail start graph stop hrun
  refine ⟨graph, ⟨availability, start, stop, hrun⟩, hsol.shape, hpth, fun pc passed hpath slot hread => ?_,
    hsol.greatest, ?_⟩
  · obtain ⟨b, block, trace, before, after, hflow, hblk, hspl, rfl⟩ := hlay.walk hpath
    exact hpth b trace block before pc after hflow hblk hspl slot hread
  intro order blocks hsame hfull hord
  have hwb : Wired blocks := hw.of_shape (hsame.shape.trans hsol.shape)
  refine (propagate_spec function hwb hfull order hord).mono (fun out hout => ?_)
  rw [hout.2, hsame.equations_eq function]

end Graph

/-- A loop that sets slot 1 on every turn and leaves when the parameter, slot 0, is false. -/
def pollLoop : BytecodeFunction Unit where
  id := 0
  metadata :=
    { semantic := { params := [], slots := [] }
      slots := [.bool, .i64]
      parameterSlots := [0]
      origins := []
      instructionOrigins := []
      effects := {}
      debug :=
        { sourceSpans := [], lineTable := [], safeDebugPoints := []
          localLiveRanges := [⟨1, 1, 3⟩] } }
  instructions := [.loadConst 1 0, .branch 0 0 2, .ret (some 1)]

/-- The check accepts the loop, so no path of it reads slot 1 before it is set. -/
theorem verifyFlow_sound_pollLoop :
    ((verifyFlow pollLoop).run ⟨false, 0, 0⟩).isOk = true ∧
      ∃ graph, Built pollLoop graph ∧ PathsDefined pollLoop graph := by
  have hok : ((verifyFlow pollLoop).run ⟨false, 0, 0⟩).isOk = true := by decide +kernel
  refine ⟨hok, ?_⟩
  cases hrun : (verifyFlow pollLoop).run ⟨false, 0, 0⟩ with
  | error e =>
    rw [hrun] at hok
    cases hok
  | ok out =>
    obtain ⟨graph, hbuilt, -, hpth, -⟩ := verifyFlow_sound pollLoop hrun
    exact ⟨graph, hbuilt, hpth⟩

end Kagari.Bytecode
