import Kagari.Gc.TableSound
import Mathlib.Data.Finset.Card

/-!
# Identity tables are maps

A table is the map that `get` reads, over runs of its operations: `prepare` finds the first number that
is not in use, and nothing else than `insert` and `remove` changes the map.
-/

namespace Kagari.Gc

open Lib Option

variable {α : Type}

variable {height id : Nat} {reserve : Nat → Bool}

namespace Table

open Block

/-- A table of the whole code: its blocks are valid and cover at most all numbers. -/
structure Valid (table : Table α) : Prop where
  root : table.root.Valid
  height : table.height ≤ 4

def Ready (table : Table α) (id : Nat) : Prop := table.root.Ready id

theorem valid_empty : (empty : Table α).Valid := ⟨Block.valid_empty 0, Nat.zero_le 4⟩

theorem size_mono (h : height ≤ 4) : size height ≤ 2 ^ 32 := by
  rcases (by omega : height = 0 ∨ height = 1 ∨ height = 2 ∨ height = 3 ∨ height = 4) with
    rfl | rfl | rfl | rfl | rfl <;> decide

/-- A full block below a new root. -/
theorem grow_spec {block : Block α height} (h : block.Valid) (hfull : block.isFull = true) :
    let root : Block α (height + 1) :=
      (⟨(List.replicate 64 none).set 0 (some block), 1, block.len⟩ : Branch (Block α height))
    root.Valid ∧ root.isFull = false ∧ ∀ id, root.get id = block.get id := by
  intro root
  have hemp := Block.valid_empty (α := α) (height + 1)
  refine ⟨Branch.Valid.set hemp (by decide) rfl ?_ ?_ ?_ ?_, rfl, fun id => ?_⟩
  · rintro _ hch
    cases hch
    exact h
  · simp [BitSet.contains, hfull]
  · intro i hi hne
    show BitSet.contains 1 i = true ↔ BitSet.contains 0 i = true
    simp [BitSet.contains, hne]
  · show block.len + 0 = 0 + block.len
    omega
  · refine (get_set hemp (by decide) (some block) 1 block.len id).trans ?_
    split
    · rename_i hdig
      have hid : id < size height := by
        rw [digit_eq, Nat.div_eq_zero_iff] at hdig
        exact hdig.resolve_left (Nat.ne_of_gt (size_pos height))
      rw [bind_some, rest_eq, Nat.mod_eq_of_lt hid]
    · rename_i hdig
      rw [get_empty, get_of_size_le h]
      refine Nat.le_of_not_lt fun hid => hdig ?_
      rw [digit_eq, Nat.div_eq_of_lt hid]

/-- What `prepare` does: the map stays, and the number is the first one not in use. -/
structure Prepared (reserve : Nat → Bool) (table : Table α) (result : Except GcError Nat) (table' : Table α) :
    Prop where
  valid : table'.Valid
  get : ∀ id, table'.get id = table.get id
  len : table'.len = table.len
  ok : ∀ id, result = .ok id → table'.Ready id ∧ id < 2 ^ 32 ∧ table.get id = none ∧ ∀ j < id, (table.get j).isSome
  error : ∀ e, result = .error e → (e = .limit "metadata identities" ∧ ∀ id < 2 ^ 32, (table.get id).isSome) ∨
    e = .allocation ∧ ∃ level, reserve level = false

variable {table : Table α}

theorem prepared_of_block (reserve : Nat → Bool) {root : Block α height}
    (h : root.Valid) (hheight : height ≤ 4) (hfull : root.isFull = false) (hget : ∀ id, root.get id = table.get id)
    (hlen : root.len = table.len) :
    Prepared reserve table (root.prepareSlot reserve).1 ⟨height, (root.prepareSlot reserve).2⟩ := by
  have hprep := prepareSlot_spec reserve h hfull
  refine ⟨⟨hprep.valid, hheight⟩, fun id => (hprep.get id).trans (hget id), hprep.len.trans hlen, ?_, ?_⟩
  · intro id hid
    obtain ⟨hrdy, hlt, hnone, hbef⟩ := hprep.ok id hid
    refine ⟨hrdy, Nat.lt_of_lt_of_le hlt (size_mono hheight), (hget id).symm.trans hnone, fun j hj => ?_⟩
    rw [← hget]
    exact hbef j hj
  · intro e he
    obtain ⟨hallocation, level, -, hrsv⟩ := hprep.error e he
    exact .inr ⟨hallocation, level, hrsv⟩

theorem prepare_spec (reserve : Nat → Bool) (h : table.Valid) :
    Prepared reserve table (table.prepare reserve).1 (table.prepare reserve).2 := by
  unfold prepare
  dsimp only
  cases hfull : table.root.isFull with
  | false => exact prepared_of_block reserve h.root h.height hfull (fun _ => rfl) rfl
  | true =>
    rw [if_pos rfl]
    by_cases hshf : shift table.height = 26
    · rw [if_pos hshf]
      refine ⟨h, fun _ => rfl, rfl, nofun, fun e he => .inl ⟨(Except.error.inj he).symm, ?_⟩⟩
      have hheight : table.height = 4 := by
        have := h.height
        rcases (by omega : table.height = 0 ∨ table.height = 1 ∨ table.height = 2 ∨ table.height = 3 ∨
          table.height = 4) with heq | heq | heq | heq | heq
        all_goals first | exact heq | rw [heq] at hshf; exact absurd hshf (by decide)
      intro id hid
      refine (isFull_iff h.root).mp hfull id ?_
      rw [hheight]
      exact hid
    · rw [if_neg hshf]
      have hheight : table.height + 1 ≤ 4 := by
        have := h.height
        have hne : table.height ≠ 4 := fun heq => hshf (by rw [heq]; rfl)
        omega
      cases hrsv : reserve (table.height + 1) with
      | true =>
        rw [if_pos rfl]
        obtain ⟨hvld, hroom, hget⟩ := grow_spec h.root hfull
        exact prepared_of_block reserve hvld hheight hroom hget rfl
      | false =>
        rw [if_neg nofun]
        exact ⟨h, fun _ => rfl, rfl, nofun, fun e he => .inr ⟨(Except.error.inj he).symm, _, hrsv⟩⟩

theorem Ready.free (h : table.Valid) (hrdy : table.Ready id) : table.get id = none :=
  (Block.Ready.free h.root hrdy).1

theorem insert_spec (h : table.Valid) (hrdy : table.Ready id) (value : α) :
    ∃ table', table.insert id value = some table' ∧ table'.Valid ∧
      (∀ j, table'.get j = if j = id then some value else table.get j) ∧ table'.len = table.len + 1 := by
  obtain ⟨root, hins, hinsd⟩ := Block.insert_spec value h.root hrdy
  refine ⟨⟨table.height, root⟩, ?_, ⟨hinsd.valid, h.height⟩, hinsd.get, hinsd.len⟩
  unfold insert
  rw [hins]
  rfl

theorem get_empty (id : Nat) : (empty : Table α).get id = none := Block.get_empty 0 id

theorem remove_spec (h : table.Valid) (id : Nat) :
    ∃ table', table.remove id = (table.get id, table') ∧ table'.Valid ∧
      (∀ j, table'.get j = if j = id then none else table.get j) ∧
      table'.len + (table.get id).elim 0 (fun _ => 1) = table.len := by
  unfold remove
  rcases Block.remove_spec id h.root with ⟨hrem, hnone⟩ | ⟨value, left, hrem, hremd⟩
  · have hget : table.get id = none := hnone
    rw [hrem, hget]
    refine ⟨table, rfl, h, fun j => ?_, rfl⟩
    split
    · rename_i heq
      rw [heq, hget]
    · rfl
  · have hget : table.get id = some value := hremd.old
    have hlen := hremd.len
    rw [hrem, hget]
    cases left with
    | none => exact ⟨empty, rfl, valid_empty, fun j => (get_empty j).trans (hremd.get j), hlen⟩
    | some root => exact ⟨⟨table.height, root⟩, rfl, ⟨hremd.valid root rfl, h.height⟩, hremd.get, hlen⟩

theorem modify_spec (h : table.Valid) (id : Nat) (change : α → α) :
    (table.modify id change).Valid ∧ (table.modify id change).len = table.len ∧
      ∀ j, (table.modify id change).get j = if j = id then (table.get id).map change else table.get j := by
  obtain ⟨hvld, hget⟩ := Block.modify_spec change id h.root
  exact ⟨⟨hvld, h.height⟩, len_modify change table.root id, hget⟩

theorem trimLoop_spec : ∀ {block : Block α height}, block.Valid → height ≤ 4 →
    (trimLoop height block).Valid ∧ (∀ id, (trimLoop height block).get id = block.get id) ∧
      (trimLoop height block).len = block.len := by
  induction height with
  | zero => exact fun h hheight => ⟨⟨h, hheight⟩, fun _ => rfl, rfl⟩
  | succ height ih =>
    intro branch h hheight
    unfold trimLoop
    cases hplc : ((Branch.children branch)[0]?).join with
    | none => exact ⟨⟨h, hheight⟩, fun _ => rfl, rfl⟩
    | some child =>
      dsimp only
      by_cases hlen : child.len = Branch.len branch
      · rw [if_pos hlen]
        have hch := join_some.mp hplc
        obtain ⟨hvld, hget, hsame⟩ := ih (Branch.Valid.child h _ _ hch) (Nat.le_of_succ_le hheight)
        refine ⟨hvld, fun id => (hget id).trans ?_, hsame.trans hlen⟩
        -- The first child has all entries.
        have hlast := total_set Block.len hch none
        have hall : branch.len = total Block.len (Branch.children branch) := Branch.Valid.len h
        have hzero : total Block.len ((Branch.children branch).set 0 none) = 0 := by
          have : branch.len = Branch.len branch := rfl
          simp only [elim_some, elim_none] at hlast
          omega
        have hother (i : Nat) (other : Block α height) (hi : i ≠ 0)
            (hplc : (Branch.children branch)[i]? = some (some other)) : other.len = 0 := by
          refine total_eq_zero.mp hzero i other ?_
          rwa [List.getElem?_set_ne (Ne.symm hi)]
        by_cases hdig : digit height id = 0
        · rw [get_child (by rw [hdig]; exact hch), rest_eq, Nat.mod_eq_of_lt]
          rw [digit_eq, Nat.div_eq_zero_iff] at hdig
          exact hdig.resolve_left (Nat.ne_of_gt (size_pos height))
        · have hnone : child.get id = none := by
            refine get_of_size_le (Branch.Valid.child h _ _ hch) (Nat.le_of_not_lt fun hlt => hdig ?_)
            rw [digit_eq, Nat.div_eq_of_lt hlt]
          rw [hnone]
          refine (eq_none_iff_forall_ne_some.mpr fun value hval => ?_).symm
          obtain ⟨other, hplc, hval⟩ := bind_eq_some_iff.mp hval
          have hplc := join_some.mp hplc
          rw [(len_eq_zero (Branch.Valid.child h _ _ hplc)).mp (hother _ other hdig hplc)] at hval
          cases hval
      · rw [if_neg hlen]
        exact ⟨⟨h, hheight⟩, fun _ => rfl, rfl⟩

theorem trim_spec (h : table.Valid) :
    table.trim.Valid ∧ (∀ id, table.trim.get id = table.get id) ∧ table.trim.len = table.len := by
  unfold trim
  by_cases hzero : table.len = 0
  · rw [if_pos hzero]
    exact ⟨valid_empty, fun id => (get_empty id).trans ((len_eq_zero h.root).mp hzero id).symm, hzero.symm⟩
  · rw [if_neg hzero]
    obtain ⟨hvld, hget⟩ := pruneEmpty_spec h.root
    obtain ⟨hvld', hget', hlen⟩ := trimLoop_spec hvld h.height
    exact ⟨hvld', fun id => (hget' id).trans (hget id), hlen.trans (len_pruneEmpty _)⟩

/-! ## Runs -/

/-- One use of a table. `insert` prepares and inserts at the number; `prepare` is given up after it. -/
inductive Call (α : Type) where
  | insert (reserve : Nat → Bool) (value : α)
  | prepare (reserve : Nat → Bool)
  | change (id : Nat) (change : α → α)
  | remove (id : Nat)
  | trim

inductive Outcome (α : Type) where
  | prepared (result : Except GcError Nat)
  | removed (old : Option α)
  | done

/-- `none` is a panic. -/
def step (table : Table α) : Call α → Option (Outcome α × Table α)
  | .insert reserve value =>
    match table.prepare reserve with
    | (.ok id, table) => (table.insert id value).map fun table => (.prepared (.ok id), table)
    | (.error e, table) => some (.prepared (.error e), table)
  | .prepare reserve =>
    let (result, table) := table.prepare reserve
    some (.prepared result, table)
  | .change id change => some (.done, table.modify id change)
  | .remove id =>
    let (old, table) := table.remove id
    some (.removed old, table)
  | .trim => some (.done, table.trim)

def run : List (Call α) → Table α → Option (List (Outcome α) × Table α)
  | [], table => some ([], table)
  | call :: calls, table => do
    let (outcome, table) ← table.step call
    let (outcomes, table) ← run calls table
    return (outcome :: outcomes, table)

/-- A number may be handed out: it is the first one that is not in use. -/
def First (map : Nat → Option α) (id : Nat) : Prop := id < 2 ^ 32 ∧ map id = none ∧ ∀ j < id, (map j).isSome

/-- Why none is handed out. -/
def Fails (map : Nat → Option α) (reserve : Nat → Bool) (e : GcError) : Prop :=
  (e = .limit "metadata identities" ∧ ∀ id < 2 ^ 32, (map id).isSome) ∨
    e = .allocation ∧ ∃ level, reserve level = false

/-- The same use of a finite map. -/
inductive Uses (map : Nat → Option α) : Call α → Outcome α → (Nat → Option α) → Prop where
  | insert {reserve : Nat → Bool} {value : α} {id : Nat} : First map id →
    Uses map (.insert reserve value) (.prepared (.ok id)) (Function.update map id (some value))
  | insertFails {reserve : Nat → Bool} {value : α} {e : GcError} : Fails map reserve e →
    Uses map (.insert reserve value) (.prepared (.error e)) map
  | prepare {reserve : Nat → Bool} {id : Nat} : First map id → Uses map (.prepare reserve) (.prepared (.ok id)) map
  | prepareFails {reserve : Nat → Bool} {e : GcError} : Fails map reserve e →
    Uses map (.prepare reserve) (.prepared (.error e)) map
  | change {id : Nat} {change : α → α} :
    Uses map (.change id change) .done (Function.update map id ((map id).map change))
  | remove {id : Nat} : Uses map (.remove id) (.removed (map id)) (Function.update map id none)
  | trim : Uses map .trim .done map

inductive MapRun : (Nat → Option α) → List (Call α) → List (Outcome α) → (Nat → Option α) → Prop where
  | nil {map : Nat → Option α} : MapRun map [] [] map
  | cons {map next last : Nat → Option α} {call : Call α} {outcome : Outcome α} {calls : List (Call α)}
      {outcomes : List (Outcome α)} : Uses map call outcome next → MapRun next calls outcomes last →
    MapRun map (call :: calls) (outcome :: outcomes) last

/-- The table is the map, and counts its entries. -/
structure Rep (table : Table α) (map : Nat → Option α) : Prop where
  valid : table.Valid
  get : ∀ id, table.get id = map id
  count : ∃ live : Finset Nat, (∀ id, id ∈ live ↔ (map id).isSome) ∧ live.card = table.len

theorem rep_empty : Rep (empty : Table α) fun _ => none :=
  ⟨valid_empty, get_empty, ∅, by simp, rfl⟩

variable {map : Nat → Option α}

theorem Prepared.rep {table table' : Table α}
    {result : Except GcError Nat} (hprep : Prepared reserve table result table') (h : Rep table map) :
    Rep table' map := by
  obtain ⟨live, hlive, hcard⟩ := h.count
  exact ⟨hprep.valid, fun id => (hprep.get id).trans (h.get id), live, hlive, hcard.trans hprep.len.symm⟩

theorem Prepared.first {table table' : Table α}
    (hprep : Prepared reserve table (.ok id) table') (h : Rep table map) : First map id := by
  obtain ⟨-, hlt, hnone, hbef⟩ := hprep.ok id rfl
  simp only [h.get] at hnone hbef
  exact ⟨hlt, hnone, hbef⟩

theorem Prepared.fails {table table' : Table α} {e : GcError}
    (hprep : Prepared reserve table (.error e) table') (h : Rep table map) : Fails map reserve e := by
  have herr := hprep.error e rfl
  simp only [h.get] at herr
  exact herr

/-- One use of the table is one of the map, and does not panic. -/
theorem Rep.step (h : Rep table map) (call : Call α) :
    ∃ outcome table' map', table.step call = some (outcome, table') ∧ Uses map call outcome map' ∧ Rep table' map' := by
  obtain ⟨live, hlive, hcard⟩ := h.count
  cases call with
  | insert reserve value =>
    have hprep := prepare_spec reserve h.valid
    unfold Table.step
    dsimp only
    generalize table.prepare reserve = prepared at hprep ⊢
    obtain ⟨_ | id, table'⟩ := prepared
    · exact ⟨_, _, map, rfl, .insertFails (hprep.fails h), hprep.rep h⟩
    · obtain ⟨hrdy, -, hnone, -⟩ := hprep.ok id rfl
      obtain ⟨table'', hins, hvld, hget, hlen⟩ := insert_spec hprep.valid hrdy value
      dsimp only
      rw [hins]
      refine ⟨_, table'', _, rfl, .insert (hprep.first h), hvld, fun j => ?_, Insert.insert id live, fun j => ?_, ?_⟩
      · rw [hget, hprep.get, h.get, Function.update_apply]
      · rw [Finset.mem_insert, hlive, Function.update_apply]
        split <;> simp_all
      · have hnot : id ∉ live := by
          rw [hlive, ← h.get, hnone]
          nofun
        rw [Finset.card_insert_of_notMem hnot, hcard, hlen, hprep.len]
  | prepare reserve =>
    have hprep := prepare_spec reserve h.valid
    unfold Table.step
    dsimp only
    generalize table.prepare reserve = prepared at hprep ⊢
    obtain ⟨_ | id, table'⟩ := prepared
    · exact ⟨_, _, map, rfl, .prepareFails (hprep.fails h), hprep.rep h⟩
    · exact ⟨_, _, map, rfl, .prepare (hprep.first h), hprep.rep h⟩
  | change id change =>
    obtain ⟨hvld, hlen, hget⟩ := modify_spec h.valid id change
    refine ⟨_, _, _, rfl, .change, hvld, fun j => ?_, live, fun j => ?_, hcard.trans hlen.symm⟩
    · rw [hget, h.get, h.get, Function.update_apply]
    · rw [hlive, Function.update_apply]
      split
      · rename_i heq
        rw [heq, isSome_map]
      · rfl
  | remove id =>
    obtain ⟨table', hrem, hvld, hget, hlen⟩ := remove_spec h.valid id
    unfold Table.step
    dsimp only
    rw [hrem]
    dsimp only
    rw [h.get]
    refine ⟨_, table', _, rfl, .remove, hvld, fun j => ?_, live.erase id, fun j => ?_, ?_⟩
    · rw [hget, h.get, Function.update_apply]
    · rw [Finset.mem_erase, hlive, Function.update_apply]
      split <;> simp_all
    · rw [h.get] at hlen
      cases hval : map id with
      | none =>
        have hnot : id ∉ live := by
          rw [hlive, hval]
          nofun
        rw [Finset.erase_eq_of_notMem hnot, hcard]
        rw [hval] at hlen
        exact hlen.symm
      | some value =>
        have hmem : id ∈ live := (hlive id).mpr (by rw [hval]; rfl)
        rw [Finset.card_erase_of_mem hmem, hcard]
        rw [hval] at hlen
        simp only [elim_some] at hlen
        omega
  | trim =>
    obtain ⟨hvld, hget, hlen⟩ := trim_spec h.valid
    exact ⟨_, _, map, rfl, .trim, hvld, fun j => (hget j).trans (h.get j), live, hlive, hcard.trans hlen.symm⟩

theorem Rep.run (calls : List (Call α)) : ∀ {table : Table α} {map : Nat → Option α}, Rep table map →
    ∃ outcomes table' map', table.run calls = some (outcomes, table') ∧ MapRun map calls outcomes map' ∧
      Rep table' map' := by
  induction calls with
  | nil => exact fun h => ⟨[], _, _, rfl, .nil, h⟩
  | cons call calls ih =>
    intro table map h
    obtain ⟨outcome, next, map', hstep, huses, hnext⟩ := h.step call
    obtain ⟨outcomes, last, map'', hrun, hmap, hlast⟩ := ih hnext
    refine ⟨outcome :: outcomes, last, map'', ?_, .cons huses hmap, hlast⟩
    unfold Table.run
    rw [hstep, bind_eq_bind, bind_some]
    dsimp only
    rw [hrun]
    rfl

/-- Every run of a table is a run of a finite map that it holds and counts, and never panics: the map
changes only where an entry is inserted, changed or removed, the number handed out is the first one that
is not in use, and none is handed out only without memory or with all numbers in use. -/
theorem table_map (calls : List (Call α)) : ∃ outcomes table map, run calls empty = some (outcomes, table) ∧
    MapRun (fun _ => none) calls outcomes map ∧ (∀ id, table.get id = map id) ∧
    ∃ live : Finset Nat, (∀ id, id ∈ live ↔ (map id).isSome) ∧ live.card = table.len := by
  obtain ⟨outcomes, table, map, hrun, hmap, hrep⟩ := rep_empty.run calls
  exact ⟨outcomes, table, map, hrun, hmap, hrep.get, hrep.count⟩

end Table

end Kagari.Gc
