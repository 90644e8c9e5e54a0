import Mathlib.Data.List.Induction
import Kagari.Mir.Dead
import Kagari.Mir.Verify.Liveness

/-!
# What is deleted

The sweep marks the rows that are dead against what is live after them (`deadAt`), and compaction
deletes exactly the marked rows: `find_spec`, `apply_spec`.
-/

namespace Kagari.Mir.Dead

open Lib List

/-! ## The sweep -/

section Sweep

variable {P : Type}

/-- What is live before some code. -/
def liveAt : List (Instruction P) → (TempId → Bool) → TempId → Bool
  | [], live => live
  | i :: code, live =>
    if isDead i (liveAt code live) then liveAt code live else liveAbove i (liveAt code live)

/-- The row is dead against what is live after it. -/
def deadAt (code : List (Instruction P)) (live : TempId → Bool) (index : Nat) : Bool :=
  (code[index]?).any fun i => isDead i (liveAt (code.drop (index + 1)) live)

theorem liveAt_append (code rest : List (Instruction P)) (live : TempId → Bool) :
    liveAt (code ++ rest) live = liveAt code (liveAt rest live) := by
  induction code with
  | nil => rfl
  | cons i code ih =>
    rw [cons_append]
    unfold liveAt
    rw [ih]

theorem deadAt_append {code : List (Instruction P)} {last : Instruction P} {live : TempId → Bool}
    {index : Nat} (h : index < code.length) :
    deadAt (code ++ [last]) live index = deadAt code (liveAt [last] live) index := by
  unfold deadAt
  rw [getElem?_append_left h, drop_append_of_le_length h, liveAt_append]

variable (code : List (Instruction P))

theorem deadAt_length (last : Instruction P) (live : TempId → Bool) :
    deadAt (code ++ [last]) live code.length = isDead last live := by
  unfold deadAt
  rw [getElem?_append_right (Nat.le_refl _)]
  simp [liveAt]

/-- The marked rows, in order. -/
def deadRows (code : List (Instruction P)) (live : TempId → Bool) : List Nat :=
  (List.range code.length).filter (deadAt code live)

theorem deadRows_append (last : Instruction P) (live : TempId → Bool) :
    deadRows (code ++ [last]) live =
      deadRows code (liveAt [last] live) ++ if isDead last live then [code.length] else [] := by
  unfold deadRows
  rw [length_append, length_singleton, range_succ, filter_append]
  congr 1
  · refine filter_congr fun index hidx => ?_
    exact deadAt_append (mem_range.mp hidx)
  · rw [filter_singleton, deadAt_length]
    cases isDead last live <;> rfl

/-- The sweep finds the marked rows, last one first. -/
theorem sweep_spec : ∀ live,
    Ensures (sweep code.zipIdx.reverse live) (fun out => out = (deadRows code live).reverse) := by
  induction code using List.reverseRecOn with
  | nil => exact fun live => .pure rfl
  | append_singleton code last ih =>
    intro live
    rw [deadRows_append, zipIdx_append, reverse_append, reverse_append]
    show Ensures (sweep ((last, 0 + code.length) :: code.zipIdx.reverse) live) _
    rw [Nat.zero_add]
    refine .seq ?_
    cases hdead : isDead last live with
    | true =>
      rw [if_pos rfl]
      have hlive : liveAt [last] live = live := by simp [liveAt, hdead]
      rw [hlive]
      refine .bind (ih live) (fun removals hrems => ?_)
      subst hrems
      exact .pure rfl
    | false =>
      rw [if_neg (by simp)]
      have hlive : liveAt [last] live = liveAbove last live := by simp [liveAt, hdead]
      rw [hlive]
      exact .seq (ih _)

end Sweep

/-! ## Compaction of one column -/

section Column

variable {α : Type}

/-- What is not marked, in order. -/
def keep (dead : Nat → Bool) (xs : List α) : List α :=
  (xs.zipIdx.filter fun entry => !dead entry.2).map (·.1)

theorem keep_map {β : Type} (dead : Nat → Bool) (g : α → β) (xs : List α) :
    keep dead (xs.map g) = (keep dead xs).map g := by
  unfold keep
  rw [zipIdx_map, filter_map, map_map, map_map]
  rfl

theorem keep_append (dead : Nat → Bool) (xs : List α) (x : α) :
    keep dead (xs ++ [x]) = keep dead xs ++ if dead xs.length then [] else [x] := by
  unfold keep
  rw [zipIdx_append, filter_append, map_append]
  congr 1
  show List.map (·.1) (List.filter _ [(x, 0 + xs.length)]) = _
  rw [Nat.zero_add, filter_singleton]
  cases dead xs.length <;> rfl

theorem length_keep_le (dead : Nat → Bool) (xs : List α) : (keep dead xs).length ≤ xs.length := by
  unfold keep
  rw [length_map]
  exact (length_filter_le _ _).trans (length_zipIdx).le

/-- How much is kept depends only on the length. -/
theorem length_keep (dead : Nat → Bool) (xs : List α) :
    (keep dead xs).length = ((List.range xs.length).filter fun k => !dead k).length := by
  induction xs using List.reverseRecOn with
  | nil => rfl
  | append_singleton xs x ih =>
    rw [keep_append, length_append, length_append, length_singleton, range_succ,
      filter_append, length_append, ih, filter_singleton]
    cases dead xs.length <;> rfl

variable {xs : List α}

theorem keep_eq_self {dead : Nat → Bool} (h : ∀ k < xs.length, dead k = false) :
    keep dead xs = xs := by
  unfold keep
  rw [filter_eq_self.mpr, zipIdx_map_fst]
  rintro ⟨x, k⟩ hmem
  have hk := (mem_zipIdx hmem).2.1
  rw [Nat.zero_add] at hk
  simp [h k hk]

/-- A column in the course of its compaction: the kept part of what is read stands in front, what is
not read is as it was. -/
structure Retained (dead : Nat → Bool) (read : Nat) (before after : List α) : Prop where
  length : after.length = before.length
  front : after.take (keep dead (before.take read)).length = keep dead (before.take read)
  unread : ∀ k, read ≤ k → after[k]? = before[k]?

theorem Retained.start (dead : Nat → Bool) (before : List α) : Retained dead 0 before before :=
  ⟨rfl, rfl, fun _ _ => rfl⟩

variable {dead : Nat → Bool} {read : Nat} {before after : List α}

theorem keep_take_succ (h : read < before.length) :
    keep dead (before.take (read + 1)) =
      keep dead (before.take read) ++ if dead read then [] else [before[read]] := by
  rw [take_succ_eq_append_getElem h, keep_append, length_take_of_le h.le]

theorem Retained.drop (h : Retained dead read before after) (hread : read < before.length)
    (hdead : dead read = true) : Retained dead (read + 1) before after := by
  refine ⟨h.length, ?_, fun k hk => h.unread k (Nat.le_of_succ_le hk)⟩
  rw [keep_take_succ hread, if_pos hdead, append_nil, h.front]

theorem swap_of_lt {a b : Nat} (hab : a < b) (hb : b < xs.length) :
    (swap xs a b).length = xs.length ∧ (swap xs a b).take (a + 1) = xs.take a ++ [xs[b]] ∧
      ∀ k, b < k → (swap xs a b)[k]? = xs[k]? := by
  have ha : a < xs.length := hab.trans hb
  have hswap : swap xs a b = (xs.set a xs[b]).set b xs[a] := by
    unfold swap
    rw [getElem?_eq_getElem ha, getElem?_eq_getElem hb]
  rw [hswap]
  refine ⟨by rw [length_set, length_set], ?_, fun k hk => ?_⟩
  · have hlt : a < (xs.set a xs[b]).length := by rwa [length_set]
    rw [take_set_of_le hab, take_succ_eq_append_getElem hlt, take_set_of_le le_rfl,
      getElem_set_self]
  · rw [getElem?_set_ne (by omega), getElem?_set_ne (by omega)]

theorem Retained.retain (h : Retained dead read before after) (hread : read < before.length)
    (hdead : dead read = false) {retained : Nat}
    (hretd : retained = (keep dead (before.take read)).length) :
    Retained dead (read + 1) before (if retained ≠ read then swap after retained read else after) := by
  have hle : retained ≤ read := by
    rw [hretd]
    refine (length_keep_le dead _).trans ?_
    rw [length_take_of_le hread.le]
  have hlt : read < after.length := by rwa [h.length]
  have hget : after[read] = before[read] := by
    have hunrd := h.unread read le_rfl
    rw [getElem?_eq_getElem hlt, getElem?_eq_getElem hread] at hunrd
    exact Option.some.inj hunrd
  have hfront : after.take retained = keep dead (before.take read) := by
    rw [hretd, h.front]
  have hnext : keep dead (before.take (read + 1)) = keep dead (before.take read) ++ [before[read]] := by
    rw [keep_take_succ hread, if_neg (by simp [hdead])]
  have hlen : (keep dead (before.take (read + 1))).length = retained + 1 := by
    rw [hnext, length_append, ← hretd]
    rfl
  split
  · rename_i hne
    obtain ⟨hswap, htake, haft⟩ := swap_of_lt (lt_of_le_of_ne hle hne) hlt
    refine ⟨hswap.trans h.length, ?_, fun k hk => ?_⟩
    · rw [hlen, htake, hfront, hget, hnext]
    · rw [haft k hk, h.unread k (Nat.le_of_succ_le hk)]
  · rename_i heq
    have heq : retained = read := not_not.mp heq
    rw [heq] at hfront
    refine ⟨h.length, ?_, fun k hk => h.unread k (Nat.le_of_succ_le hk)⟩
    rw [hlen, heq, take_succ_eq_append_getElem hlt, hget, hfront, hnext]

theorem Retained.finish (h : Retained dead before.length before after) :
    after.take (keep dead before).length = keep dead before := by
  have hfront := h.front
  rwa [take_length] at hfront

end Column

/-! ## Compaction of a block -/

section Block

variable {P : Type} {dead : Nat → Bool}

/-- The block without its marked rows. -/
def clean (dead : Nat → Bool) (block : BasicBlock P) : BasicBlock P :=
  block.withRows (keep dead block.rows)

variable {block : BasicBlock P}

theorem clean_columns (h : block.Aligned) :
    clean dead block = { block with
      instructions := keep dead block.instructions
      instructionSpans := keep dead block.instructionSpans
      instructionScopes := keep dead block.instructionScopes } := by
  unfold clean BasicBlock.withRows
  rw [← keep_map, ← keep_map, ← keep_map, ← BasicBlock.instructions_eq h, ← BasicBlock.spans_eq h,
    ← BasicBlock.scopes_eq h]

/-- A block in the course of its compaction. -/
structure Retaining (dead : Nat → Bool) (read retained : Nat) (before after : BasicBlock P) : Prop where
  instructions : Retained dead read before.instructions after.instructions
  spans : Retained dead read before.instructionSpans after.instructionSpans
  scopes : Retained dead read before.instructionScopes after.instructionScopes
  rest : after = { before with
    instructions := after.instructions
    instructionSpans := after.instructionSpans
    instructionScopes := after.instructionScopes }
  count : retained = ((List.range read).filter fun k => !dead k).length

variable {before after : BasicBlock P} {read retained : Nat}

theorem Retaining.drop (h : Retaining dead read retained before after) (halgn : before.Aligned)
    (hread : read < before.instructions.length) (hdead : dead read = true) :
    Retaining dead (read + 1) retained before after := by
  obtain ⟨hspn, hscps⟩ := halgn
  refine ⟨h.instructions.drop hread hdead, h.spans.drop (by omega) hdead,
    h.scopes.drop (by omega) hdead, h.rest, ?_⟩
  rw [h.count, range_succ, filter_append, filter_singleton, hdead]
  simp

theorem length_keep_take {α : Type} {xs : List α} (h : read ≤ xs.length) :
    ((List.range read).filter fun k => !dead k).length = (keep dead (xs.take read)).length := by
  rw [length_keep, length_take_of_le h]

theorem Retaining.retain (h : Retaining dead read retained before after) (halgn : before.Aligned)
    (hread : read < before.instructions.length) (hdead : dead read = false) :
    Retaining dead (read + 1) (retained + 1) before
      (if retained ≠ read then swapRows after retained read else after) := by
  obtain ⟨hspn, hscps⟩ := halgn
  have hcnt := h.count
  have hinstrs := h.instructions.retain hread hdead
    (hcnt.trans (length_keep_take (by omega)))
  have hspan := h.spans.retain (by omega) hdead (hcnt.trans (length_keep_take (by omega)))
  have hscp := h.scopes.retain (by omega) hdead (hcnt.trans (length_keep_take (by omega)))
  have hnext : retained + 1 = ((List.range (read + 1)).filter fun k => !dead k).length := by
    rw [hcnt, range_succ, filter_append, filter_singleton, hdead]
    simp
  by_cases hne : retained ≠ read
  · rw [if_pos hne] at hinstrs hspan hscp ⊢
    refine ⟨hinstrs, hspan, hscp, ?_, hnext⟩
    unfold swapRows
    rw [h.rest]
  · rw [if_neg hne] at hinstrs hspan hscp ⊢
    exact ⟨hinstrs, hspan, hscp, h.rest, hnext⟩

theorem retainRows_spec (halgn : before.Aligned) (steps : Nat) :
    ∀ (read retained : Nat) (removals : List Nat) (after : BasicBlock P),
      read + steps = before.instructions.length →
      removals = (List.range' read steps).filter dead → Retaining dead read retained before after →
      Ensures (retainRows steps read retained removals after) (fun out =>
        Retaining dead before.instructions.length out.2 before out.1) := by
  induction steps with
  | zero =>
    intro read retained removals after hlen _ h
    rw [Nat.add_zero] at hlen
    exact .pure (hlen ▸ h)
  | succ steps ih =>
    intro read retained removals after hlen hrems h
    have hread : read < before.instructions.length := by omega
    rw [List.range'_succ, filter_cons] at hrems
    refine .seq ?_
    cases hdead : dead read with
    | true =>
      rw [hdead, if_pos rfl] at hrems
      rw [if_pos (by rw [hrems]; rfl)]
      refine ih _ _ _ _ (by omega) ?_ (h.drop halgn hread hdead)
      rw [hrems]
      rfl
    | false =>
      rw [hdead, if_neg (by simp)] at hrems
      have hhead : removals.head? ≠ some read := by
        intro hhead
        have hmem := mem_of_mem_head? hhead
        rw [hrems, mem_filter, mem_range'_1] at hmem
        omega
      rw [if_neg hhead]
      have hnext := h.retain halgn hread hdead
      split
      · rename_i hne
        rw [if_pos hne] at hnext
        exact .seq (ih _ _ _ _ (by omega) hrems hnext)
      · rename_i heq
        rw [if_neg heq] at hnext
        exact ih _ _ _ _ (by omega) hrems hnext

theorem truncateRows_truncateRows (block : BasicBlock P) {stop retained : Nat} (h : retained ≤ stop) :
    truncateRows (truncateRows block stop) retained = truncateRows block retained := by
  unfold truncateRows
  dsimp only
  rw [take_take, take_take, take_take, Nat.min_eq_left h]

theorem truncateRows_self (halgn : block.Aligned)
    (h : block.instructions.length ≤ retained) : truncateRows block retained = block := by
  obtain ⟨hspn, hscps⟩ := halgn
  unfold truncateRows
  rw [take_of_length_le h, take_of_length_le (by omega), take_of_length_le (by omega)]

theorem truncateRows_aligned (halgn : block.Aligned) (stop : Nat) :
    (truncateRows block stop).Aligned := by
  obtain ⟨hspn, hscps⟩ := halgn
  unfold truncateRows BasicBlock.Aligned
  dsimp only
  rw [length_take, length_take, length_take, hspn, ← hspn, hscps]
  exact ⟨rfl, rfl⟩

theorem dropTail_spec (fuel : Nat) : ∀ block : BasicBlock P, block.Aligned →
    block.instructions.length ≤ retained + fuel →
    Ensures (dropTail retained fuel block) (fun out => out = truncateRows block retained) := by
  induction fuel with
  | zero => exact fun block halgn h => .pure (truncateRows_self halgn h).symm
  | succ fuel ih =>
    intro block halgn h
    unfold dropTail
    split
    · rename_i hlt
      refine .seq ((ih _ (truncateRows_aligned halgn _) ?_).mono ?_)
      · unfold truncateRows
        dsimp only
        rw [length_take]
        omega
      · rintro out rfl
        exact truncateRows_truncateRows block (le_max_right _ _)
    · rename_i hle
      exact .pure (truncateRows_self halgn (not_lt.mp hle)).symm

theorem compactBlock_spec (halgn : before.Aligned) :
    Ensures (compactBlock before ((List.range before.instructions.length).filter dead))
      (fun out => out = clean dead before) := by
  have hst : Retaining dead 0 0 before before :=
    ⟨.start dead _, .start dead _, .start dead _, rfl, rfl⟩
  refine .bind (retainRows_spec halgn _ 0 0 _ before (Nat.zero_add _) ?_ hst) ?_
  · rw [range_eq_range']
  rintro ⟨after, retained⟩ h
  obtain ⟨hspn, hscps⟩ := halgn
  dsimp only at h ⊢
  refine (dropTail_spec _ after ?_ (Nat.le_add_left _ _)).mono ?_
  · refine ⟨?_, ?_⟩
    · rw [h.instructions.length, h.spans.length, hspn]
    · rw [h.instructions.length, h.scopes.length, hscps]
  rintro out rfl
  have hspanRead := h.spans
  have hscopeRead := h.scopes
  rw [hspn] at hspanRead
  rw [hscps] at hscopeRead
  have hcnt : ∀ {α : Type} (xs : List α), before.instructions.length = xs.length →
      retained = (keep dead xs).length := by
    intro α xs hlen
    rw [h.count, length_keep, hlen]
  rw [clean_columns ⟨hspn, hscps⟩]
  unfold truncateRows
  rw [h.rest]
  dsimp only
  congr 1
  · rw [hcnt _ rfl, h.instructions.finish]
  · rw [hcnt _ hspn, hspanRead.finish]
  · rw [hcnt _ hscps, hscopeRead.finish]

end Block

/-! ## The module -/

section Module

variable {P : Type}

/-- The row of a sealed function is found dead. -/
def deadIn (sealedFunction : Sealed P) (b : BlockId) (index : Nat) : Bool :=
  reachable sealedFunction b &&
    deadAt (instructionsAt sealedFunction.function b) (liveTemps sealedFunction b) index

/-- A sealed function without its dead rows. -/
def cleaned (sealedFunction : Sealed P) : MirFunction P :=
  { sealedFunction.function with
    blocks := sealedFunction.function.blocks.mapIdx fun b block => clean (deadIn sealedFunction b) block }

/-- What is removed from a block with so many rows, last one first. -/
def removalsAt (dead : Nat → BlockId → Nat → Bool) (rows : Nat → BlockId → Nat)
    (key : Nat × BlockId) : List (Nat × BlockId × Nat) :=
  ((List.range (rows key.1 key.2)).filter (dead key.1 key.2)).reverse.map
    fun index => (key.1, key.2, index)

theorem findBlocks_spec (sealedFunction : Sealed P) (function : Nat) (blocks : List (BasicBlock P)) :
    ∀ b, (∀ j : Nat, blocks[j]? = sealedFunction.function.blocks[b + j]?) →
      Ensures (findBlocks sealedFunction function blocks b) (fun out =>
        out = (List.range' b blocks.length).flatMap fun b =>
          removalsAt (fun _ => deadIn sealedFunction)
            (fun _ b => (instructionsAt sealedFunction.function b).length) (function, b)) := by
  induction blocks with
  | nil => exact fun b _ => .pure rfl
  | cons block blocks ih =>
    intro b hblks
    have hrest : ∀ j : Nat, blocks[j]? = sealedFunction.function.blocks[b + 1 + j]? := by
      intro j
      have hj := hblks (j + 1)
      rw [getElem?_cons_succ] at hj
      rw [hj]
      congr 1
      exact (Nat.add_right_comm b 1 j).symm
    have hcode : instructionsAt sealedFunction.function b = block.instructions := by
      have hb := hblks 0
      rw [Nat.add_zero, getElem?_cons_zero] at hb
      unfold instructionsAt
      rw [← hb]
      rfl
    rw [length_cons, List.range'_succ, flatMap_cons]
    unfold findBlocks
    split
    · rename_i hrchb
      refine .seq (.bind (sweep_spec _ _) ?_)
      rintro _ rfl
      refine .bind (ih (b + 1) hrest) ?_
      rintro _ rfl
      refine .pure ?_
      congr 1
      unfold removalsAt deadRows deadIn
      dsimp only
      rw [hcode, hrchb]
      rfl
    · rename_i hrchb
      refine (ih (b + 1) hrest).mono ?_
      rintro _ rfl
      have hnone : removalsAt (fun _ => deadIn sealedFunction)
          (fun _ b => (instructionsAt sealedFunction.function b).length) (function, b) = [] := by
        unfold removalsAt deadIn
        simp [hrchb]
      rw [hnone, nil_append]

/-- The blocks of some functions, in order. -/
def blockKeys (functions : List (MirFunction P)) (first : Nat) : List (Nat × BlockId) :=
  (functions.zipIdx first).flatMap fun entry => (List.range entry.1.blocks.length).map (Prod.mk entry.2)

theorem blockKeys_cons (f : MirFunction P) (functions : List (MirFunction P)) (first : Nat) :
    blockKeys (f :: functions) first =
      (List.range f.blocks.length).map (Prod.mk first) ++ blockKeys functions (first + 1) := by
  unfold blockKeys
  rw [zipIdx_cons, flatMap_cons]

variable {functions : List (MirFunction P)} {key : Nat × BlockId} {f : MirFunction P}

theorem blockKeys_fst_ge {first : Nat}
    (h : key ∈ blockKeys functions first) : first ≤ key.1 := by
  obtain ⟨⟨f, k⟩, hf, hkey⟩ := mem_flatMap.mp h
  obtain ⟨b, -, rfl⟩ := mem_map.mp hkey
  exact (mem_zipIdx hf).1

theorem blockKeys_nodup (functions : List (MirFunction P)) : ∀ first,
    (blockKeys functions first).Nodup := by
  induction functions with
  | nil => exact fun first => nodup_nil
  | cons f functions ih =>
    intro first
    rw [blockKeys_cons]
    refine nodup_append.mpr ⟨?_, ih (first + 1), ?_⟩
    · exact nodup_range.map fun a b h => (Prod.mk.inj h).2
    · rintro key hkey other hother rfl
      obtain ⟨b, -, rfl⟩ := mem_map.mp hkey
      exact absurd (blockKeys_fst_ge hother) (Nat.not_succ_le_self first)

theorem mem_blockKeys {k : Nat}
    (hk : functions[k]? = some f) {b : BlockId} (hb : b < f.blocks.length) :
    (k, b) ∈ blockKeys functions 0 := by
  refine mem_flatMap.mpr ⟨(f, k), ?_, mem_map_of_mem (mem_range.mpr hb)⟩
  exact mk_mem_zipIdx_iff_getElem?.mpr hk

/-- Which rows of which function are dead. -/
def deadTable (functions : List (Sealed P)) (k : Nat) (b : BlockId) (index : Nat) : Bool :=
  (functions[k]?).elim false fun sealedFunction => deadIn sealedFunction b index

def rowTable (functions : List (MirFunction P)) (k : Nat) (b : BlockId) : Nat :=
  (functions[k]?).elim 0 fun f => (instructionsAt f b).length

theorem findFunctions_spec (all functions : List (Sealed P)) : ∀ first,
    (∀ j : Nat, functions[j]? = all[first + j]?) →
      Ensures (findFunctions functions first) (fun out =>
        out = (blockKeys (functions.map (·.function)) first).flatMap
          (removalsAt (deadTable all) (rowTable (all.map (·.function))))) := by
  induction functions with
  | nil => exact fun first _ => .pure rfl
  | cons sealedFunction functions ih =>
    intro first hall
    have hfst : all[first]? = some sealedFunction := (hall 0).symm
    have hrest : ∀ j : Nat, functions[j]? = all[first + 1 + j]? := by
      intro j
      rw [show first + 1 + j = first + (j + 1) by omega, ← hall (j + 1)]
      rfl
    refine .bind (findBlocks_spec sealedFunction first _ 0 fun j => by rw [Nat.zero_add]) ?_
    rintro _ rfl
    refine .bind (ih (first + 1) hrest) ?_
    rintro _ rfl
    refine .pure ?_
    rw [map_cons, blockKeys_cons, flatMap_append, flatMap_map, range_eq_range']
    congr 1
    refine flatMap_congr fun b _ => ?_
    unfold removalsAt deadTable rowTable
    dsimp only
    rw [getElem?_map, hfst]
    rfl

/-! ## The groups -/

/-- The functions while some blocks are still to be compacted. -/
structure Compacting (dead : Nat → BlockId → Nat → Bool) (before : List (MirFunction P))
    (waiting : List (Nat × BlockId)) (after : List (MirFunction P)) : Prop where
  length : after.length = before.length
  blocks : ∀ k f, before[k]? = some f → ∃ blocks, after[k]? = some { f with blocks } ∧
    ∀ b : BlockId, blocks[b]? = f.blocks[b]?.map fun block =>
      if (k, b) ∈ waiting then block else clean (dead k b) block

variable {dead : Nat → BlockId → Nat → Bool} {before after : List (MirFunction P)}
  {k : Nat} {b : BlockId} {waiting : List (Nat × BlockId)}

variable {block : BasicBlock P} {removal : Nat × BlockId × Nat}

theorem clean_eq_self (halgn : block.Aligned) {dead : Nat → Bool}
    (h : (List.range block.instructions.length).filter dead = []) : clean dead block = block := by
  have hnone : ∀ k < block.instructions.length, dead k = false := by
    intro k hk
    have hnot := filter_eq_nil_iff.mp h k (mem_range.mpr hk)
    simpa using hnot
  obtain ⟨hspn, hscps⟩ := halgn
  rw [clean_columns ⟨hspn, hscps⟩, keep_eq_self hnone, keep_eq_self (by rwa [← hspn]),
    keep_eq_self (by rwa [← hscps])]

theorem Compacting.skip (h : Compacting dead before ((k, b) :: waiting) after)
    (halgn : ∀ f ∈ before, f.Aligned)
    (hnone : (List.range (rowTable before k b)).filter (dead k b) = []) :
    Compacting dead before waiting after := by
  refine ⟨h.length, fun j f hj => ?_⟩
  obtain ⟨blocks, haft, hblks⟩ := h.blocks j f hj
  refine ⟨blocks, haft, fun c => ?_⟩
  rw [hblks c]
  cases hc : f.blocks[c]? with
  | none => rfl
  | some block =>
    by_cases hkey : (j, c) = (k, b)
    · obtain ⟨rfl, rfl⟩ := Prod.mk.inj hkey
      have hrows : rowTable before j c = block.instructions.length := by
        unfold rowTable instructionsAt
        rw [hj, Option.elim_some, hc]
        rfl
      rw [hrows] at hnone
      have hclean := clean_eq_self
        (halgn f (mem_of_getElem? hj) block (mem_of_getElem? hc)) hnone
      rw [Option.map_some, Option.map_some, if_pos (mem_cons_self ..), hclean, ite_self]
    · simp only [Option.map_some, mem_cons, hkey, false_or]

theorem rowTable_eq (hk : before[k]? = some f)
    (hb : f.blocks[b]? = some block) : rowTable before k b = block.instructions.length := by
  unfold rowTable instructionsAt
  rw [hk, Option.elim_some, hb]
  rfl

theorem Compacting.set (h : Compacting dead before ((k, b) :: waiting) after)
    (hfr : (k, b) ∉ waiting) (hk : before[k]? = some f)
    {blocks : List (BasicBlock P)} (haft : after[k]? = some { f with blocks })
    (hblks : ∀ c : BlockId, blocks[c]? = f.blocks[c]?.map fun block =>
      if (k, c) ∈ (k, b) :: waiting then block else clean (dead k c) block)
    (hb : f.blocks[b]? = some block) :
    Compacting dead before waiting
      (after.set k { f with blocks := blocks.set b (clean (dead k b) block) }) := by
  have hlt : b < blocks.length := by
    have hsome := hblks b
    rw [hb, Option.map_some] at hsome
    exact (List.getElem?_eq_some_iff.mp hsome).1
  refine ⟨by rw [List.length_set, h.length], fun j g hj => ?_⟩
  by_cases hjk : j = k
  · subst hjk
    cases hk.symm.trans hj
    refine ⟨_, List.getElem?_set_self (List.getElem?_eq_some_iff.mp haft).1, fun c => ?_⟩
    by_cases hcb : c = b
    · subst hcb
      rw [List.getElem?_set_self hlt, hb, Option.map_some, if_neg hfr]
    · have hkey : (j, c) ≠ (j, b) := fun heq => hcb (Prod.mk.inj heq).2
      rw [List.getElem?_set_ne (Ne.symm hcb), hblks c]
      simp only [List.mem_cons, hkey, false_or]
  · obtain ⟨others, hoths, hsame⟩ := h.blocks j g hj
    refine ⟨others, by rw [List.getElem?_set_ne (Ne.symm hjk), hoths], fun c => ?_⟩
    have hkey : (j, c) ≠ (k, b) := fun heq => hjk (Prod.mk.inj heq).1
    rw [hsame c]
    simp only [List.mem_cons, hkey, false_or]

theorem compactAt_spec (hfr : (k, b) ∉ waiting)
    (h : Compacting dead before ((k, b) :: waiting) after) (halgn : ∀ f ∈ before, f.Aligned)
    (hsome : (List.range (rowTable before k b)).filter (dead k b) ≠ []) :
    Ensures (compactAt after k b ((List.range (rowTable before k b)).filter (dead k b)))
      (Compacting dead before waiting) := by
  obtain ⟨f, hk, block, hb⟩ : ∃ f, before[k]? = some f ∧ ∃ block, f.blocks[b]? = some block := by
    unfold rowTable instructionsAt at hsome
    cases hk : before[k]? with
    | none => simp [hk] at hsome
    | some f =>
      cases hb : f.blocks[b]? with
      | none => simp [hk, hb] at hsome
      | some block => exact ⟨f, rfl, block, hb⟩
  obtain ⟨blocks, haft, hblks⟩ := h.blocks k f hk
  have hblk : blocks[b]? = some block := by
    rw [hblks b, hb, Option.map_some, if_pos (mem_cons_self ..)]
  unfold compactAt
  rw [haft]
  dsimp only
  rw [hblk]
  dsimp only
  rw [rowTable_eq hk hb]
  have hblockAligned := halgn f (mem_of_getElem? hk) block (mem_of_getElem? hb)
  refine .bind (compactBlock_spec hblockAligned) ?_
  rintro _ rfl
  exact .pure (h.set hfr hk haft hblks hb)

theorem mem_removalsAt {rows : Nat → BlockId → Nat}
    (h : removal ∈ removalsAt dead rows key) :
    (removal.1, removal.2.1) = key := by
  obtain ⟨index, -, rfl⟩ := mem_map.mp h
  rfl

theorem inGroup_iff :
    inGroup k b removal = true ↔ (removal.1, removal.2.1) = (k, b) := by
  unfold inGroup
  rw [Bool.and_eq_true, beq_iff_eq, beq_iff_eq, Prod.mk.injEq]

/-- A group ends where the next key begins. -/
theorem group_split {α : Type} {p : α → Bool} {group rest : List α} (hgrp : ∀ x ∈ group, p x = true)
    (hrest : ∀ x ∈ rest, ¬p x = true) :
    (group ++ rest).takeWhile p = group ∧ (group ++ rest).dropWhile p = rest := by
  rw [takeWhile_append_of_pos hgrp, dropWhile_append_of_pos hgrp]
  cases rest with
  | nil => exact ⟨append_nil _, rfl⟩
  | cons first rest =>
    have hfst := hrest first (mem_cons_self ..)
    rw [takeWhile_cons_of_neg hfst, dropWhile_cons_of_neg hfst, append_nil]
    exact ⟨rfl, rfl⟩

theorem removalsAt_indices (rows : Nat → BlockId → Nat) :
    (removalsAt dead rows (k, b)).reverse.map (·.2.2) =
      (List.range (rows k b)).filter (dead k b) := by
  unfold removalsAt
  rw [← map_reverse, reverse_reverse, map_map]
  exact map_id _

/-- The first group is compacted, then the others. -/
theorem applyGroups_group {fuel : Nat} {group rest : List (Nat × BlockId × Nat)}
    (hne : group ≠ []) (hgrp : ∀ removal ∈ group, inGroup k b removal = true)
    (hrest : ∀ removal ∈ rest, ¬inGroup k b removal = true) {Q : List (MirFunction P) → Prop}
    (h : Ensures (do
      let functions ← compactAt after k b (group.reverse.map (·.2.2))
      applyGroups fuel functions rest) Q) :
    Ensures (applyGroups (fuel + 1) after (group ++ rest)) Q := by
  obtain ⟨htake, hdrop⟩ := group_split hgrp hrest
  cases group with
  | nil => exact absurd rfl hne
  | cons first group =>
    obtain ⟨k', b', index⟩ := first
    obtain ⟨rfl, rfl⟩ := Prod.mk.inj (inGroup_iff.mp (hgrp _ (mem_cons_self ..)))
    rw [cons_append] at htake hdrop ⊢
    refine .seq ?_
    rw [htake, hdrop]
    exact h

theorem applyGroups_spec (halgn : ∀ f ∈ before, f.Aligned) (waiting : List (Nat × BlockId)) :
    ∀ (fuel : Nat) (after : List (MirFunction P)), waiting.Nodup →
      (waiting.flatMap (removalsAt dead (rowTable before))).length ≤ fuel →
      Compacting dead before waiting after →
      Ensures (applyGroups fuel after (waiting.flatMap (removalsAt dead (rowTable before))))
        (Compacting dead before []) := by
  induction waiting with
  | nil =>
    intro fuel after _ _ h
    cases fuel with
    | zero => exact .pure h
    | succ fuel => exact .pure h
  | cons key waiting ih =>
    intro fuel after hnd hfuel h
    obtain ⟨k, b⟩ := key
    obtain ⟨hfr, hnd⟩ := nodup_cons.mp hnd
    rw [flatMap_cons] at hfuel ⊢
    by_cases hsome : (List.range (rowTable before k b)).filter (dead k b) = []
    · have hemp : removalsAt dead (rowTable before) (k, b) = [] := by
        unfold removalsAt
        rw [hsome]
        rfl
      rw [hemp, nil_append] at hfuel ⊢
      exact ih fuel after hnd hfuel (h.skip halgn hsome)
    · have hne : removalsAt dead (rowTable before) (k, b) ≠ [] := by
        intro hemp
        have hidxs := @removalsAt_indices dead k b (rowTable before)
        rw [hemp] at hidxs
        exact hsome hidxs.symm
      have hpos := length_pos_iff.mpr hne
      rw [length_append] at hfuel
      obtain ⟨fuel, rfl⟩ : ∃ n, fuel = n + 1 := ⟨fuel - 1, by omega⟩
      refine applyGroups_group (k := k) (b := b) hne (fun removal hrem => ?_) (fun removal hrem hsame => ?_) ?_
      · exact inGroup_iff.mpr (mem_removalsAt hrem)
      · obtain ⟨key, hkey, hmem⟩ := mem_flatMap.mp hrem
        rw [← mem_removalsAt hmem, inGroup_iff.mp hsame] at hkey
        exact hfr hkey
      · rw [removalsAt_indices]
        refine .bind (compactAt_spec hfr h halgn hsome) (fun after' h' => ?_)
        exact ih fuel after' hnd (by omega) h'

/-- What `find` finds in a module. -/
def allRemovals (functions : List (Sealed P)) : List (Nat × BlockId × Nat) :=
  (blockKeys (functions.map (·.function)) 0).flatMap
    (removalsAt (deadTable functions) (rowTable (functions.map (·.function))))

theorem find_spec (functions : List (Sealed P)) :
    Ensures (find functions) (fun out => out = allRemovals functions) :=
  findFunctions_spec functions functions 0 fun j => by rw [Nat.zero_add]

theorem mem_allRemovals {functions : List (Sealed P)} {k : Nat} {s : Sealed P}
    (hk : functions[k]? = some s) {b : BlockId} {index : Nat} :
    (k, b, index) ∈ allRemovals functions ↔
      index < (instructionsAt s.function b).length ∧ deadIn s b index = true := by
  have hf : (functions.map (·.function))[k]? = some s.function := by
    rw [getElem?_map, hk]
    rfl
  have hrows : rowTable (functions.map (·.function)) k b = (instructionsAt s.function b).length := by
    unfold rowTable
    rw [hf]
    rfl
  have hdead : deadTable functions k b = deadIn s b := by
    funext index
    unfold deadTable
    rw [hk]
    rfl
  unfold allRemovals
  rw [mem_flatMap]
  constructor
  · rintro ⟨key, -, hmem⟩
    obtain rfl := mem_removalsAt hmem
    obtain ⟨index', hidx, heq⟩ := mem_map.mp hmem
    obtain rfl : index' = index := (Prod.mk.inj (Prod.mk.inj heq).2).2
    rw [mem_reverse, mem_filter, mem_range] at hidx
    rwa [hrows, hdead] at hidx
  · rintro ⟨hlt, hidx⟩
    have hb : b < s.function.blocks.length := by
      by_contra hnot
      unfold instructionsAt at hlt
      rw [getElem?_eq_none_iff.mpr (Nat.not_lt.mp hnot)] at hlt
      exact absurd hlt (Nat.not_lt_zero index)
    refine ⟨(k, b), mem_blockKeys hf hb, mem_map.mpr ⟨index, ?_, rfl⟩⟩
    rw [mem_reverse, mem_filter, mem_range, hrows, hdead]
    exact ⟨hlt, hidx⟩

/-- Exactly the dead rows of every function are deleted. -/
theorem apply_spec (functions : List (Sealed P)) (halgn : ∀ s ∈ functions, s.function.Aligned) :
    Ensures (apply (functions.map (·.function)) (allRemovals functions))
      (fun out => out = functions.map cleaned) := by
  have hall : ∀ f ∈ functions.map (·.function), f.Aligned := by
    intro f hf
    obtain ⟨s, hs, rfl⟩ := List.mem_map.mp hf
    exact halgn s hs
  have hst : Compacting (deadTable functions) (functions.map (·.function))
      (blockKeys (functions.map (·.function)) 0) (functions.map (·.function)) := by
    refine ⟨rfl, fun k f hk => ⟨f.blocks, hk, fun b => ?_⟩⟩
    cases hb : f.blocks[b]? with
    | none => rfl
    | some block =>
      rw [Option.map_some, if_pos (mem_blockKeys hk (List.getElem?_eq_some_iff.mp hb).1)]
  refine (applyGroups_spec hall _ _ _ (blockKeys_nodup _ 0) le_rfl hst).mono fun out h => ?_
  refine List.ext_getElem? fun k => ?_
  rw [List.getElem?_map]
  cases hk : functions[k]? with
  | none =>
    rw [Option.map_none, List.getElem?_eq_none_iff, h.length, List.length_map]
    exact List.getElem?_eq_none_iff.mp hk
  | some s =>
    obtain ⟨blocks, hout, hblks⟩ := h.blocks k s.function (by rw [List.getElem?_map, hk]; rfl)
    have heq : blocks = s.function.blocks.mapIdx fun b block => clean (deadIn s b) block := by
      refine List.ext_getElem? fun b => ?_
      rw [hblks b, List.getElem?_mapIdx]
      refine congrArg (Option.map · s.function.blocks[b]?) (funext fun block => ?_)
      rw [if_neg (List.not_mem_nil)]
      refine congrArg (clean · block) (funext fun index => ?_)
      unfold deadTable
      rw [hk]
      rfl
    rw [hout, Option.map_some, heq]
    rfl

end Module

end Kagari.Mir.Dead
