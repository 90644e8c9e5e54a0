import Mathlib.Algebra.BigOperators.Group.List.Basic
import Mathlib.Algebra.Ring.Nat
import Kagari.Gc.Table

/-!
# The blocks of identity tables

In a valid block the bits say which slots or children are full, and `len` counts the entries. Every
operation keeps blocks valid, and is described by what `get` reads before and after it.
-/

namespace Kagari.Gc

open Lib List

/-! ## Counted entries -/

section Total

variable {β : Type} {weight : β → Nat} {entries : List (Option β)}

/-- What the present entries weigh together. -/
def total (weight : β → Nat) (entries : List (Option β)) : Nat := (entries.map (Option.elim · 0 weight)).sum

theorem total_set (weight : β → Nat) {i : Nat} {entry : Option β} (h : entries[i]? = some entry) (entry' : Option β) :
    total weight (entries.set i entry') + entry.elim 0 weight = total weight entries + entry'.elim 0 weight := by
  unfold total
  induction entries generalizing i with
  | nil => cases h
  | cons first entries ih =>
    cases i with
    | zero =>
      obtain rfl : first = entry := Option.some.inj h
      simp only [set_cons_zero, map_cons, sum_cons]
      omega
    | succ i =>
      have := ih h
      simp only [set_cons_succ, map_cons, sum_cons]
      omega

@[simp] theorem total_replicate (weight : β → Nat) (n : Nat) : total weight (List.replicate n none) = 0 := by
  simp [total]

theorem total_append (weight : β → Nat) (entries more : List (Option β)) :
    total weight (entries ++ more) = total weight entries + total weight more := by
  unfold total
  rw [map_append, sum_append]

theorem total_eq_zero : total weight entries = 0 ↔ ∀ (i : Nat) x, entries[i]? = some (some x) → weight x = 0 := by
  unfold total
  rw [List.sum_eq_zero_iff_forall_eq_nat]
  constructor
  · intro h i x hx
    exact h _ (List.mem_map.mpr ⟨some x, List.mem_of_getElem? hx, rfl⟩)
  · intro h n hn
    obtain ⟨entry, hent, rfl⟩ := List.mem_map.mp hn
    obtain ⟨i, hi⟩ := List.mem_iff_getElem?.mp hent
    cases entry with
    | none => rfl
    | some x => exact h i x hi

/-- An entry in the place of another one. -/
theorem getElem?_join_set {i : Nat} (hi : i < entries.length) (entry : Option β) (j : Nat) :
    ((entries.set i entry)[j]?).join = if j = i then entry else (entries[j]?).join := by
  rw [getElem?_set]
  by_cases hj : i = j
  · subst hj
    simp [hi]
  · rw [if_neg hj, if_neg (Ne.symm hj)]

theorem getElem?_join_append (entries : List (Option β)) (n i : Nat) :
    ((entries ++ List.replicate n none)[i]?).join = (entries[i]?).join := by
  rw [getElem?_append]
  split
  · rfl
  · rename_i hge
    rw [getElem?_replicate, getElem?_eq_none (Nat.le_of_not_lt hge)]
    split <;> rfl

/-- A change to a present entry. -/
theorem getElem?_join_modify (f : β → β) (i j : Nat) :
    ((entries.modify i (Option.map f))[j]?).join =
      if j = i then ((entries[i]?).join).map f else (entries[j]?).join := by
  rw [getElem?_modify]
  by_cases hj : i = j
  · subst hj
    rcases entries[i]? with _ | _ | x <;> simp
  · rw [if_neg (Ne.symm hj)]
    cases entries[j]? <;> simp [hj]

theorem total_modify {f : β → β} (hf : ∀ x, weight (f x) = weight x) (i : Nat) :
    total weight (entries.modify i (Option.map f)) = total weight entries := by
  unfold total
  induction entries generalizing i with
  | nil => simp
  | cons entry entries ih =>
    cases i with
    | zero => cases entry <;> simp [hf]
    | succ i => simp only [modify_succ_cons, map_cons, sum_cons, ih]

end Total

/-! ## Numbers -/

/-- The numbers that a block holds. -/
def size : Nat → Nat
  | 0 => 256
  | height + 1 => 64 * size height

theorem two_pow_shift (height : Nat) : 2 ^ shift (height + 1) = size height := by
  induction height with
  | zero => rfl
  | succ height ih =>
    show 2 ^ (shift (height + 1) + 6) = 64 * size height
    rw [Nat.pow_add, ih, Nat.mul_comm]

theorem size_pos (height : Nat) : 0 < size height := by
  rw [← two_pow_shift]
  exact Nat.two_pow_pos _

theorem digit_eq (height id : Nat) : digit height id = id / size height := by
  rw [digit, Nat.shiftRight_eq_div_pow, two_pow_shift]

theorem rest_eq (height id : Nat) : rest height id = id % size height := by
  rw [rest, Nat.one_shiftLeft, Nat.and_two_pow_sub_one_eq_mod, two_pow_shift]

theorem rest_lt (height id : Nat) : rest height id < size height := by
  rw [rest_eq]
  exact Nat.mod_lt _ (size_pos height)

theorem digit_lt {height id : Nat} : digit height id < 64 ↔ id < size (height + 1) := by
  rw [digit_eq, Nat.div_lt_iff_lt_mul (size_pos height)]
  rfl

variable {height index offset id : Nat}

/-- A number by its digit and the rest. -/
theorem shiftLeft_or (h : offset < size height) :
    index <<< shift (height + 1) ||| offset = size height * index + offset := by
  rw [← Nat.shiftLeft_add_eq_or_of_lt (by rwa [two_pow_shift]), Nat.shiftLeft_eq, two_pow_shift, Nat.mul_comm]

theorem digit_rest (height id : Nat) : size height * digit height id + rest height id = id := by
  rw [digit_eq, rest_eq]
  exact Nat.div_add_mod _ _

theorem digit_add (h : offset < size height) :
    digit height (size height * index + offset) = index := by
  rw [digit_eq, Nat.mul_add_div (size_pos height), Nat.div_eq_of_lt h, Nat.add_zero]

theorem rest_add (h : offset < size height) :
    rest height (size height * index + offset) = offset := by
  rw [rest_eq, Nat.mul_add_mod, Nat.mod_eq_of_lt h]

theorem ext_digit {height i j : Nat} (hdig : digit height i = digit height j) (hrest : rest height i = rest height j) :
    i = j := by
  rw [← digit_rest height i, hdig, hrest, digit_rest]

/-! ## Valid blocks -/

variable {α : Type}

structure Leaf.Valid (leaf : Leaf α) : Prop where
  words : leaf.full.length = 4
  slots : leaf.slots.length ≤ 256
  full : ∀ i < 256, BitSet.contains (leaf.full.getD (i / 64) 0) (i % 64) = true ↔ ((leaf.slots[i]?).join).isSome
  len : leaf.len = total (fun _ => 1) leaf.slots

structure Branch.Valid {β : Type} (valid : β → Prop) (isFull : β → Bool) (len : β → Nat) (branch : Branch β) :
    Prop where
  children : branch.children.length = 64
  child : ∀ (i : Nat) child, branch.children[i]? = some (some child) → valid child
  full : ∀ i < 64, BitSet.contains branch.full i = true ↔
    ∃ child, branch.children[i]? = some (some child) ∧ isFull child = true
  len : branch.len = total len branch.children

variable {β : Type} {leaf : Leaf α}

/-- Another child in one place, with its bit and the length kept up. -/
theorem Branch.Valid.set {valid : β → Prop} {isFull : β → Bool} {weigh : β → Nat} {branch : Branch β}
    (h : Branch.Valid valid isFull weigh branch) {index : Nat} (hidx : index < 64) {old new : Option β}
    (hold : branch.children[index]? = some old) (hnew : ∀ child, new = some child → valid child)
    {full : BitVec 64} {len : Nat}
    (hfull : BitSet.contains full index = true ↔ ∃ child, new = some child ∧ isFull child = true)
    (hother : ∀ i < 64, i ≠ index → (BitSet.contains full i = true ↔ BitSet.contains branch.full i = true))
    (hlen : len + old.elim 0 weigh = branch.len + new.elim 0 weigh) :
    Branch.Valid valid isFull weigh ⟨branch.children.set index new, full, len⟩ := by
  have hkids := h.children
  refine ⟨by rw [length_set, hkids], fun i child hch => ?_, fun i hi => ?_, ?_⟩
  · rw [getElem?_set] at hch
    split at hch
    · rename_i heq
      rw [if_pos (by omega)] at hch
      exact hnew child (Option.some.inj hch)
    · exact h.child i child hch
  · dsimp only
    by_cases heq : i = index
    · subst heq
      rw [getElem?_set_self (by omega), hfull]
      simp only [Option.some.injEq]
    · rw [hother i hi heq, h.full i hi, getElem?_set_ne (Ne.symm heq)]
  · have := total_set weigh hold new
    have := h.len
    dsimp only
    omega

namespace Block

/-- The bits of a block are those of its full slots and children, and its length counts its entries. -/
def Valid : {height : Nat} → Block α height → Prop
  | 0, leaf => Leaf.Valid leaf
  | _ + 1, branch => Branch.Valid Valid isFull len branch

/-- An entry can be inserted at the number. -/
def Ready : {height : Nat} → Block α height → Nat → Prop
  | 0, leaf, id => (Leaf.slots leaf)[id]? = some none
  | height + 1, branch, id =>
    ∃ child : Block α height, (Branch.children branch)[digit height id]? = some (some child) ∧
      Ready child (rest height id)

@[simp] theorem get_empty (height id : Nat) : (empty height : Block α height).get id = none := by
  cases height with
  | zero => rfl
  | succ height =>
    show ((List.replicate 64 none)[digit height id]?).join.bind _ = none
    rw [getElem?_replicate]
    split <;> rfl

theorem valid_empty (height : Nat) : Valid (empty height : Block α height) := by
  cases height with
  | zero =>
    refine ⟨rfl, Nat.zero_le _, fun i hi => ?_, rfl⟩
    have hzero : (List.replicate 4 (0 : BitVec 64)).getD (i / 64) 0 = 0 := by
      rw [getD_eq_getElem?_getD, getElem?_replicate]
      split <;> rfl
    show BitSet.contains ((List.replicate 4 0).getD (i / 64) 0) _ = true ↔ _
    rw [hzero]
    simp [empty, emptyLeaf]
  | succ height =>
    have hnone (i : Nat) (child : Block α height) : (List.replicate 64 none)[i]? ≠ some (some child) := by
      rw [getElem?_replicate]
      split <;> nofun
    refine ⟨length_replicate, fun i child h => absurd h (hnone i child), fun i hi => ?_,
      (total_replicate _ _).symm⟩
    refine ⟨fun h => ?_, fun ⟨child, h, _⟩ => absurd h (hnone i child)⟩
    simp [empty, emptyBranch] at h

variable {height : Nat}

variable {block : Block α height} {index : Nat}

/-- Beyond its size, a block has no entries. -/
theorem get_of_size_le (h : block.Valid) (hid : size height ≤ id) :
    block.get id = none := by
  cases height with
  | zero =>
    have hsl : (Leaf.slots block).length ≤ id := h.slots.trans hid
    show ((Leaf.slots block)[id]?).join = none
    rw [getElem?_eq_none hsl]
    rfl
  | succ height =>
    have hdig : (Branch.children block).length ≤ digit height id := by
      rw [Branch.Valid.children h]
      exact Nat.le_of_not_lt fun hlt => absurd (digit_lt.mp hlt) (Nat.not_lt.mpr hid)
    show ((Branch.children block)[digit height id]?).join.bind _ = none
    rw [getElem?_eq_none hdig]
    rfl

variable {branch : Block α (height + 1)}

variable {child : Block α height}

/-- The entries of a branch are those of its children. -/
theorem get_child
    (h : (Branch.children branch)[digit height id]? = some (some child)) :
    branch.get id = child.get (rest height id) := by
  show ((Branch.children branch)[digit height id]?).join.bind _ = _
  rw [h]
  rfl

/-- The child at an index, or its place. -/
theorem getElem?_children (h : branch.Valid)
    (hidx : index < 64) :
    (Branch.children branch)[index]? = some ((Branch.children branch).getD index none) := by
  rw [getD_eq_getElem?_getD, getElem?_eq_getElem (by rwa [Branch.Valid.children h])]
  rfl

/-- The entries of a branch with another child in one place. -/
theorem get_set (h : branch.Valid) (hidx : index < 64)
    (new : Option (Block α height)) (full : BitVec 64) (len id : Nat) :
    @get α (height + 1) (⟨(Branch.children branch).set index new, full, len⟩ : Branch (Block α height)) id =
      if digit height id = index then new.bind (·.get (rest height id)) else branch.get id := by
  show ((((Branch.children branch).set index new)[digit height id]?).join).bind _ = _
  rw [getElem?_join_set (by rwa [Branch.Valid.children h])]
  split <;> rfl

theorem join_some {entry : Option (Option β)} {x : β} : entry.join = some x ↔ entry = some (some x) :=
  Option.join_eq_some_iff

theorem isFull_iff : ∀ {block : Block α height}, block.Valid →
    (block.isFull = true ↔ ∀ id < size height, (block.get id).isSome) := by
  induction height with
  | zero =>
    intro leaf h
    have hget {word : Nat} (hlt : word < 4) : (Leaf.full leaf)[word]? = some ((Leaf.full leaf).getD word 0) := by
      rw [List.getD_eq_getElem?_getD, List.getElem?_eq_getElem (by rwa [Leaf.Valid.words h])]
      rfl
    have hall : leaf.isFull = true ↔ ∀ word ∈ Leaf.full leaf, word = BitVec.allOnes 64 := by
      show (Leaf.full leaf).all _ = true ↔ _
      rw [List.all_eq_true]
      simp only [beq_iff_eq]
    rw [hall]
    constructor
    · intro hfull i (hi : i < 256)
      have hlt : i / 64 < 4 := by omega
      refine (Leaf.Valid.full h i hi).mp ?_
      rw [hfull _ (List.mem_of_getElem? (hget hlt))]
      exact BitSet.eq_allOnes_iff.mp rfl _ (Nat.mod_lt _ (by decide))
    · intro hsome word hmem
      obtain ⟨k, hk⟩ := List.mem_iff_getElem?.mp hmem
      have hlt : k < 4 := Leaf.Valid.words h ▸ (List.getElem?_eq_some_iff.mp hk).1
      cases hk.symm.trans (hget hlt)
      refine BitSet.eq_allOnes_iff.mpr fun i hi => ?_
      have hbit := (Leaf.Valid.full h (64 * k + i) (by omega)).mpr (hsome _ (show 64 * k + i < 256 by omega))
      rwa [Nat.mul_add_mod, Nat.mod_eq_of_lt hi, Nat.mul_add_div (by decide), Nat.div_eq_of_lt hi, Nat.add_zero] at hbit
  | succ height ih =>
    intro branch h
    have hall : branch.isFull = true ↔ ∀ i < 64, BitSet.contains (Branch.full branch) i = true := by
      rw [← BitSet.eq_allOnes_iff]
      exact beq_iff_eq
    rw [hall]
    constructor
    · intro hfull id hid
      obtain ⟨child, hch, hfull⟩ := (Branch.Valid.full h _ (digit_lt.mpr hid)).mp (hfull _ (digit_lt.mpr hid))
      rw [get_child hch]
      exact (ih (Branch.Valid.child h _ _ hch)).mp hfull _ (rest_lt height id)
    · intro hsome i hi
      have hbelow {offset : Nat} (hoff : offset < size height) : (branch.get (size height * i + offset)).isSome :=
        hsome _ (digit_lt.mp (by rwa [digit_add hoff]))
      obtain ⟨value, hval⟩ := Option.isSome_iff_exists.mp (hbelow (size_pos height))
      obtain ⟨child, hch, -⟩ := Option.bind_eq_some_iff.mp hval
      rw [digit_add (size_pos height)] at hch
      have hch := join_some.mp hch
      refine (Branch.Valid.full h i hi).mpr ⟨child, hch, ?_⟩
      rw [ih (Branch.Valid.child h _ _ hch)]
      intro offset hoff
      have hsome := hbelow hoff
      rwa [get_child (by rwa [digit_add hoff]), rest_add hoff] at hsome

theorem len_eq_zero : ∀ {block : Block α height}, block.Valid →
    (block.len = 0 ↔ ∀ id, block.get id = none) := by
  induction height with
  | zero =>
    intro leaf h
    have hlen : leaf.len = total (fun _ => 1) (Leaf.slots leaf) := Leaf.Valid.len h
    rw [hlen, total_eq_zero]
    constructor
    · intro hzero id
      refine Option.eq_none_iff_forall_ne_some.mpr fun value hval => ?_
      exact absurd (hzero id value (join_some.mp hval)) (by decide)
    · intro hnone i x hx
      exact absurd (hnone i) (by rw [show leaf.get i = some x from join_some.mpr hx]; nofun)
  | succ height ih =>
    intro branch h
    have hlen : branch.len = total len (Branch.children branch) := Branch.Valid.len h
    rw [hlen, total_eq_zero]
    constructor
    · intro hzero id
      refine Option.eq_none_iff_forall_ne_some.mpr fun value hval => ?_
      obtain ⟨child, hch, hval⟩ := Option.bind_eq_some_iff.mp hval
      have hch := join_some.mp hch
      have hnone := (ih (Branch.Valid.child h _ _ hch)).mp (hzero _ child hch) (rest height id)
      rw [hnone] at hval
      cases hval
    · intro hnone i child hch
      rw [ih (Branch.Valid.child h _ _ hch)]
      intro id
      by_cases hid : id < size height
      · have hnone := hnone (size height * i + id)
        rwa [get_child (by rwa [digit_add hid]), rest_add hid] at hnone
      · exact get_of_size_le (Branch.Valid.child h _ _ hch) (Nat.le_of_not_lt hid)

/-! ## Preparing -/

/-- What `prepare_slot` does to a block that is not full. -/
structure Prepared (reserve : Nat → Bool) {height : Nat} (block : Block α height) (result : Except GcError Nat)
    (block' : Block α height) : Prop where
  valid : block'.Valid
  get : ∀ id, block'.get id = block.get id
  len : block'.len = block.len
  ok : ∀ id, result = .ok id → block'.Ready id ∧ id < size height ∧ block.get id = none ∧
    ∀ j < id, (block.get j).isSome
  error : ∀ e, result = .error e → e = .allocation ∧ ∃ level ≤ height, reserve level = false

theorem Leaf.Valid.grow (h : leaf.Valid) {n : Nat} (hn : leaf.slots.length + n ≤ 256) :
    Leaf.Valid { leaf with slots := leaf.slots ++ List.replicate n none } := by
  refine ⟨h.words, ?_, fun i hi => ?_, ?_⟩
  · rw [length_append, length_replicate]
    exact hn
  · rw [getElem?_join_append]
    exact h.full i hi
  · rw [total_append, total_replicate]
    exact h.len

/-- The first slot that is not in use. -/
theorem firstSlot (h : leaf.Valid) {word : Nat}
    (hword : leaf.full.findIdx? (· != BitVec.allOnes 64) = some word) :
    let index := word * 64 + BitSet.missing (leaf.full.getD word 0)
    index < 256 ∧ (leaf.slots[index]?).join = none ∧ ∀ j < index, ((leaf.slots[j]?).join).isSome := by
  intro index
  obtain ⟨hlt, hne, hbef⟩ := findIdx?_eq_some_iff_getElem.mp hword
  have hword : word < 4 := h.words ▸ hlt
  have hget : leaf.full.getD word 0 = leaf.full[word] := by
    rw [getD_eq_getElem?_getD, getElem?_eq_getElem hlt]
    rfl
  obtain ⟨hmiss, hnot⟩ := BitSet.contains_missing (bne_iff_ne.mp hne)
  have hidx : index = 64 * word + BitSet.missing leaf.full[word] := by
    rw [← hget, Nat.mul_comm]
  have hdiv : index / 64 = word := by omega
  have hmod : index % 64 = BitSet.missing leaf.full[word] := by omega
  refine ⟨by omega, ?_, fun j hj => ?_⟩
  · have hfull := h.full index (by omega)
    rw [hdiv, hmod, hget, hnot] at hfull
    exact Option.not_isSome_iff_eq_none.mp fun hsome => absurd (hfull.mpr hsome) nofun
  · refine (h.full j (by omega)).mp ?_
    rcases Nat.lt_or_eq_of_le (show j / 64 ≤ word by omega) with hless | heq
    · have hones := hbef (j / 64) hless
      rw [bne_iff_ne, not_not] at hones
      rw [getD_eq_getElem?_getD, getElem?_eq_getElem (by omega)]
      show BitSet.contains leaf.full[j / 64] _ = true
      rw [hones]
      exact BitSet.eq_allOnes_iff.mp rfl _ (Nat.mod_lt _ (by decide))
    · rw [heq, hget]
      exact BitSet.contains_of_lt_missing (by omega) (Nat.mod_lt _ (by decide))

theorem prepareSlot_leaf (reserve : Nat → Bool) {leaf : Block α 0} (h : leaf.Valid) (hfull : leaf.isFull = false) :
    Prepared reserve leaf (leaf.prepareSlot reserve).1 (leaf.prepareSlot reserve).2 := by
  unfold prepareSlot
  cases hword : (Leaf.full leaf).findIdx? (· != BitVec.allOnes 64) with
  | none =>
    rw [findIdx?_eq_none_iff] at hword
    have hall : leaf.isFull = true := by
      refine all_eq_true.mpr fun word hmem => ?_
      have hones := hword word hmem
      rwa [bne_eq_false_iff_eq, ← beq_iff_eq] at hones
    rw [hfull] at hall
    cases hall
  | some word =>
    obtain ⟨hidx, hnone, hbef⟩ := firstSlot h hword
    dsimp only
    generalize word * 64 + BitSet.missing ((Leaf.full leaf).getD word 0) = index at *
    by_cases hlen : (Leaf.slots leaf).length ≤ index
    · rw [if_pos hlen]
      cases hrsv : reserve 0 with
      | true =>
        refine ⟨Leaf.Valid.grow h (by omega), fun id => getElem?_join_append _ _ _, rfl, ?_, nofun⟩
        rintro id hid
        cases hid
        refine ⟨?_, hidx, hnone, hbef⟩
        show ((Leaf.slots leaf) ++ List.replicate _ none)[index]? = some none
        rw [getElem?_append_right hlen, getElem?_replicate, if_pos (by omega)]
      | false =>
        refine ⟨h, fun _ => rfl, rfl, nofun, ?_⟩
        rintro e he
        exact ⟨(Except.error.inj he).symm, 0, Nat.le_refl 0, hrsv⟩
    · rw [if_neg hlen]
      refine ⟨h, fun _ => rfl, rfl, ?_, nofun⟩
      rintro id hid
      cases hid
      refine ⟨?_, hidx, hnone, hbef⟩
      have hslot := getElem?_eq_getElem (Nat.lt_of_not_le hlen)
      rw [hslot] at hnone
      show (Leaf.slots leaf)[index]? = some none
      rw [hslot]
      exact congrArg some hnone

/-- The child that a branch prepares in: one with room, with what the branch holds there. -/
theorem firstChild (h : branch.Valid) (hfull : branch.isFull = false) :
    let index := BitSet.missing (Branch.full branch)
    index < 64 ∧ BitSet.contains (Branch.full branch) index = false ∧
      ∀ child, ((Branch.children branch).getD index none = some child ∨
        (Branch.children branch).getD index none = none ∧ child = empty height) →
      child.Valid ∧ child.isFull = false ∧ (∀ id,
        digit height id = index → branch.get id = child.get (rest height id)) ∧
      child.len = ((Branch.children branch).getD index none).elim 0 len ∧
      ∀ id, digit height id < index → (branch.get id).isSome := by
  intro index
  have hne : Branch.full branch ≠ BitVec.allOnes 64 := by
    rintro heq
    rw [show branch.isFull = (Branch.full branch == BitVec.allOnes 64) from rfl, heq, beq_self_eq_true] at hfull
    cases hfull
  obtain ⟨hidx, hnot⟩ := BitSet.contains_missing hne
  have hget := getElem?_children h hidx
  have hbef (id : Nat) (hid : digit height id < index) : (branch.get id).isSome := by
    have hlt : digit height id < 64 := Nat.lt_trans hid hidx
    obtain ⟨child, hch, hfull⟩ := (Branch.Valid.full h _ hlt).mp (BitSet.contains_of_lt_missing hid hlt)
    rw [get_child hch]
    exact (isFull_iff (Branch.Valid.child h _ _ hch)).mp hfull _ (rest_lt height id)
  refine ⟨hidx, hnot, ?_⟩
  rintro child (hch | ⟨hch, rfl⟩)
  · rw [hch] at hget ⊢
    refine ⟨Branch.Valid.child h _ _ hget, ?_, fun id hid => get_child (hid ▸ hget), rfl, hbef⟩
    refine Bool.eq_false_iff.mpr fun hfull => ?_
    exact absurd ((Branch.Valid.full h _ hidx).mpr ⟨child, hget, hfull⟩) (by rw [hnot]; nofun)
  · rw [hch] at hget ⊢
    have hemp : (empty height : Block α height).isFull = false := by
      refine Bool.eq_false_iff.mpr fun hfull => ?_
      have hsome := (isFull_iff (valid_empty height)).mp hfull 0 (size_pos height)
      rw [get_empty] at hsome
      cases hsome
    refine ⟨valid_empty height, hemp, fun id hid => ?_, ?_, hbef⟩
    · show ((Branch.children branch)[digit height id]?).join.bind _ = _
      rw [hid, hget, get_empty]
      rfl
    · exact (len_eq_zero (valid_empty height)).mpr (get_empty height)

theorem prepareSlot_spec (reserve : Nat → Bool) : ∀ {block : Block α height}, block.Valid →
    block.isFull = false →
      Prepared reserve block (block.prepareSlot reserve).1 (block.prepareSlot reserve).2 := by
  induction height with
  | zero => exact prepareSlot_leaf reserve
  | succ height ih =>
    intro branch h hfull
    obtain ⟨hidx, hnot, hfst⟩ := firstChild h hfull
    unfold prepareSlot
    dsimp only
    generalize hnext : BitSet.missing (Branch.full branch) = index at *
    rw [if_neg (Nat.ne_of_lt hidx)]
    cases hch : ((Branch.children branch).getD index none).or
        (if height = 0 ∨ reserve height then some (empty height) else none) with
    | none =>
      refine ⟨h, fun _ => rfl, rfl, nofun, fun e he => ⟨(Except.error.inj he).symm, height, Nat.le_succ _, ?_⟩⟩
      obtain ⟨-, hmade⟩ := Option.or_eq_none_iff.mp hch
      split at hmade
      · cases hmade
      · rename_i hnot
        exact Bool.eq_false_iff.mpr fun hrsv => hnot (.inr hrsv)
    | some child =>
      obtain ⟨hvld, hroom, hget, hlen, hbef⟩ := hfst child (by
        rcases Option.or_eq_some_iff.mp hch with hold | ⟨hold, hmade⟩
        · exact .inl hold
        · refine .inr ⟨hold, ?_⟩
          split at hmade
          · exact (Option.some.inj hmade).symm
          · cases hmade)
      have hprep := ih hvld hroom
      dsimp only
      generalize hres : child.prepareSlot reserve = result at hprep ⊢
      obtain ⟨offset, child'⟩ := result
      dsimp only at hprep ⊢
      have hsame : ∀ id, @get α (height + 1)
          ({ (branch : Branch (Block α height)) with
            children := (Branch.children branch).set index (some child') } : Branch (Block α height)) id =
          branch.get id := by
        intro id
        rw [get_set h hidx]
        split
        · rename_i hdig
          rw [hget id hdig]
          exact hprep.get _
        · rfl
      have hfull' : child'.isFull = false := by
        refine Bool.eq_false_iff.mpr fun hfull => Bool.eq_false_iff.mp hroom ?_
        rw [isFull_iff hprep.valid] at hfull
        rw [isFull_iff hvld]
        intro id hid
        rw [← hprep.get id]
        exact hfull id hid
      refine ⟨?_, hsame, rfl, ?_, ?_⟩
      · refine Branch.Valid.set h hidx (getElem?_children h hidx) ?_ ?_ (fun _ _ _ => Iff.rfl) ?_
        · rintro _ hch
          obtain rfl := Option.some.inj hch
          exact hprep.valid
        · show BitSet.contains (Branch.full branch) index = true ↔ _
          rw [hnot]
          simp [hfull']
        · rw [← hlen]
          exact congrArg _ hprep.len.symm
      · rintro id hid
        obtain ⟨offset, rfl⟩ : ∃ value, offset = .ok value := by
          cases offset with
          | ok value => exact ⟨value, rfl⟩
          | error e => cases hid
        obtain rfl := Except.ok.inj hid
        obtain ⟨hrdy, hlt, hnone, hbelow⟩ := hprep.ok offset rfl
        beta_reduce
        rw [shiftLeft_or hlt]
        refine ⟨⟨child', ?_, ?_⟩, digit_lt.mp ?_, ?_, fun j hj => ?_⟩
        · rw [digit_add hlt]
          exact getElem?_set_self (by rwa [Branch.Valid.children h])
        · rwa [rest_add hlt]
        · rwa [digit_add hlt]
        · rw [hget _ (digit_add hlt), rest_add hlt]
          exact hnone
        · have hdig : digit height j ≤ index := by
            have hidx : digit height (size height * index + offset) = index := digit_add hlt
            rw [← hidx, digit_eq, digit_eq]
            exact Nat.div_le_div_right (Nat.le_of_lt hj)
          rcases Nat.lt_or_eq_of_le hdig with hless | heq
          · exact hbef j hless
          · rw [hget j heq]
            refine hbelow _ ?_
            rw [← digit_rest height j, heq] at hj
            omega
      · intro e he
        cases offset with
        | ok value => cases he
        | error e' =>
          obtain rfl := Except.error.inj he
          obtain ⟨hallocation, level, hlevel, hrsv⟩ := hprep.error e' rfl
          exact ⟨hallocation, level, Nat.le_succ_of_le hlevel, hrsv⟩

/-! ## Entries -/

theorem Ready.free : ∀ {block : Block α height} {id : Nat}, block.Valid → block.Ready id →
    block.get id = none ∧ id < size height := by
  induction height with
  | zero =>
    intro leaf id h hrdy
    refine ⟨?_, Nat.lt_of_lt_of_le (List.getElem?_eq_some_iff.mp hrdy).1 (Leaf.Valid.slots h)⟩
    show ((Leaf.slots leaf)[id]?).join = none
    rw [show (Leaf.slots leaf)[id]? = some none from hrdy]
    rfl
  | succ height ih =>
    rintro branch id h ⟨child, hch, hrdy⟩
    have hlt : digit height id < 64 := Branch.Valid.children h ▸ (List.getElem?_eq_some_iff.mp hch).1
    rw [get_child hch]
    exact ⟨(ih (Branch.Valid.child h _ _ hch) hrdy).1, digit_lt.mp hlt⟩

/-- The block has the entry as well. -/
structure Inserted {height : Nat} (block : Block α height) (id : Nat) (value : α) (block' : Block α height) :
    Prop where
  valid : block'.Valid
  get : ∀ j, block'.get j = if j = id then some value else block.get j
  len : block'.len = block.len + 1

theorem getD_modify {entries : List β} {k : Nat} (hk : k < entries.length) (f : β → β) (j : Nat) (d : β) :
    (entries.modify k f).getD j d = if j = k then f (entries.getD j d) else entries.getD j d := by
  rw [getD_eq_getElem?_getD, getElem?_modify, getD_eq_getElem?_getD]
  by_cases hj : k = j
  · subst hj
    rw [getElem?_eq_getElem hk]
    simp
  · rw [if_neg (Ne.symm hj)]
    cases entries[j]? <;> simp [hj]

/-- A slot with another entry, its bit kept up. -/
theorem Leaf.Valid.set (h : leaf.Valid) {old new : Option α} (hold : leaf.slots[id]? = some old)
    {change : BitVec 64 → BitVec 64} {n : Nat}
    (hchg : ∀ word i, i < 64 → (BitSet.contains (change word) i = true ↔
      if i = id % 64 then new.isSome else BitSet.contains word i))
    (hlen : n + old.elim 0 (fun _ => 1) = leaf.len + new.elim 0 (fun _ => 1)) :
    Leaf.Valid ⟨leaf.slots.set id new, leaf.full.modify (id / 64) change, n⟩ := by
  have hid : id < leaf.slots.length := (List.getElem?_eq_some_iff.mp hold).1
  have hsl := h.slots
  refine ⟨by rw [List.length_modify, h.words], by rwa [List.length_set], fun i hi => ?_, ?_⟩
  · dsimp only
    rw [getElem?_join_set hid, getD_modify (by rw [h.words]; omega)]
    by_cases hword : i / 64 = id / 64
    · rw [if_pos hword, hchg _ _ (Nat.mod_lt _ (by decide))]
      by_cases hbit : i % 64 = id % 64
      · rw [if_pos hbit, if_pos (by omega)]
      · rw [if_neg hbit, if_neg (by rintro rfl; exact hbit rfl)]
        exact h.full i hi
    · rw [if_neg hword, if_neg (by rintro rfl; exact hword rfl)]
      exact h.full i hi
  · have := total_set (fun _ => 1) hold new
    have := h.len
    dsimp only
    omega

/-- The entries of a branch, where a child has changed under one number. -/
theorem get_set_child (h : branch.Valid)
    (hch : (Branch.children branch)[digit height id]? = some (some child))
    {new : Option (Block α height)} {entry : Option α}
    (hnew : ∀ j, new.bind (·.get j) = if j = rest height id then entry else child.get j) (full : BitVec 64)
    (len j : Nat) :
    @get α (height + 1) (⟨(Branch.children branch).set (digit height id) new, full, len⟩ :
      Branch (Block α height)) j = if j = id then entry else branch.get j := by
  have hidx : digit height id < 64 := Branch.Valid.children h ▸ (List.getElem?_eq_some_iff.mp hch).1
  rw [get_set h hidx]
  by_cases hdig : digit height j = digit height id
  · rw [if_pos hdig, hnew, get_child (hdig ▸ hch)]
    by_cases hrest : rest height j = rest height id
    · rw [if_pos hrest, if_pos (ext_digit hdig hrest)]
    · rw [if_neg hrest, if_neg (by rintro rfl; exact hrest rfl)]
  · rw [if_neg hdig, if_neg (by rintro rfl; exact hdig rfl)]

theorem insert_spec (value : α) : ∀ {block : Block α height} {id : Nat}, block.Valid →
    block.Ready id → ∃ block', block.insert value id = some block' ∧ Inserted block id value block' := by
  induction height with
  | zero =>
    intro leaf id h hrdy
    have hslot : (Leaf.slots leaf)[id]? = some none := hrdy
    have hid : id < (Leaf.slots leaf).length := (List.getElem?_eq_some_iff.mp hslot).1
    have hvld : Leaf.Valid ⟨(Leaf.slots leaf).set id (some value),
        (Leaf.full leaf).modify (id / 64) fun word => BitSet.insert word (id % 64), Leaf.len leaf + 1⟩ := by
      refine Leaf.Valid.set h hslot (fun word i hi => ?_) rfl
      rw [BitSet.contains_insert]
      by_cases heq : i = id % 64 <;> simp [heq, hi, Nat.mod_lt]
    exact ⟨_, by unfold insert; rw [hslot], hvld, fun j => getElem?_join_set hid _ _, rfl⟩
  | succ height ih =>
    rintro branch id h ⟨child, hch, hrdy⟩
    have hidx : digit height id < 64 := Branch.Valid.children h ▸ (List.getElem?_eq_some_iff.mp hch).1
    have hvld := Branch.Valid.child h _ _ hch
    obtain ⟨child', hins, hinsd⟩ := ih hvld hrdy
    have hnot : ¬ BitSet.contains (Branch.full branch) (digit height id) = true := by
      intro hbit
      obtain ⟨full, hfull, hall⟩ := (Branch.Valid.full h _ hidx).mp hbit
      cases Option.some.inj (hfull.symm.trans hch)
      have hsome := (isFull_iff hvld).mp hall _ (rest_lt height id)
      rw [(Ready.free hvld hrdy).1] at hsome
      cases hsome
    let full := if child'.isFull then BitSet.insert (Branch.full branch) (digit height id) else Branch.full branch
    have hbits (i : Nat) (hi : i < 64) : BitSet.contains full i = true ↔
        if i = digit height id then child'.isFull = true else BitSet.contains (Branch.full branch) i = true := by
      show BitSet.contains (if _ then _ else _) i = true ↔ _
      cases hfull : child'.isFull with
      | true =>
        rw [if_pos rfl, BitSet.contains_insert]
        by_cases heq : i = digit height id <;> simp [heq, hidx]
      | false =>
        rw [if_neg nofun]
        by_cases heq : i = digit height id
        · simp [heq, hnot]
        · simp [heq]
    have hbr : Branch.Valid Valid isFull len (⟨(Branch.children branch).set (digit height id) (some child'), full,
        Branch.len branch + 1⟩ : Branch (Block α height)) := by
      refine Branch.Valid.set h hidx hch ?_ ?_ ?_ ?_
      · rintro _ hch'
        cases hch'
        exact hinsd.valid
      · rw [hbits _ hidx, if_pos rfl]
        simp
      · intro i hi hne
        rw [hbits i hi, if_neg hne]
      · have := hinsd.len
        simp only [Option.elim_some]
        omega
    have hget (j : Nat) : (some child').bind (·.get j) = if j = rest height id then some value else child.get j :=
      hinsd.get j
    refine ⟨_, ?_, hbr, get_set_child h hch hget _ _, rfl⟩
    unfold insert
    dsimp only
    rw [join_some.mpr hch, Option.bind_some, hins]
    rfl

/-- What `remove` leaves of a block with the entry: nothing, if it was the only one. -/
structure Removed {height : Nat} (block : Block α height) (id : Nat) (value : α) (left : Option (Block α height)) :
    Prop where
  old : block.get id = some value
  get : ∀ j, left.bind (·.get j) = if j = id then none else block.get j
  valid : ∀ block', left = some block' → block'.Valid
  len : left.elim 0 len + 1 = block.len

theorem Removed.of_block {block block' : Block α height} {value : α}
    (hold : block.get id = some value) (hvld : block'.Valid)
    (hget : ∀ j, block'.get j = if j = id then none else block.get j) (hlen : block'.len + 1 = block.len) :
    Removed block id value (if block'.len = 0 then none else some block') := by
  by_cases hzero : block'.len = 0
  · rw [if_pos hzero]
    refine ⟨hold, fun j => ?_, nofun, ?_⟩
    · rw [← hget, (len_eq_zero hvld).mp hzero]
      rfl
    · rw [← hlen, hzero]
      rfl
  · rw [if_neg hzero]
    refine ⟨hold, hget, fun left hleft => ?_, hlen⟩
    cases hleft
    exact hvld

theorem len_pos (h : block.Valid) {value : α}
    (hval : block.get id = some value) : 0 < block.len := by
  refine Nat.pos_of_ne_zero fun hzero => ?_
  rw [(len_eq_zero h).mp hzero id] at hval
  cases hval

theorem remove_spec : ∀ {block : Block α height} (id : Nat), block.Valid →
    (block.remove id = none ∧ block.get id = none ∨
      ∃ value left, block.remove id = some (value, left) ∧ Removed block id value left) := by
  induction height with
  | zero =>
    intro leaf id h
    cases hslot : ((Leaf.slots leaf)[id]?).join with
    | none =>
      refine .inl ⟨?_, hslot⟩
      unfold remove
      rw [hslot]
      rfl
    | some value =>
      have hold := join_some.mp hslot
      have hid := (List.getElem?_eq_some_iff.mp hold).1
      have hpos : 0 < Leaf.len leaf := len_pos h hslot
      let leaf' : Block α 0 := (⟨(Leaf.slots leaf).set id none,
        (Leaf.full leaf).modify (id / 64) fun word => BitSet.remove word (id % 64), Leaf.len leaf - 1⟩ : Leaf α)
      have hvld : leaf'.Valid := by
        refine Leaf.Valid.set h hold (fun word i hi => ?_) ?_
        · rw [BitSet.contains_remove]
          by_cases heq : i = id % 64 <;> simp [heq]
        · simp only [Option.elim_some, Option.elim_none]
          omega
      refine .inr ⟨value, if leaf'.len = 0 then none else some leaf', ?_,
        .of_block hslot hvld (getElem?_join_set hid none) (Nat.sub_add_cancel hpos)⟩
      unfold remove
      rw [hslot]
      rfl
  | succ height ih =>
    intro branch id h
    cases hplc : ((Branch.children branch)[digit height id]?).join with
    | none =>
      refine .inl ⟨?_, ?_⟩
      · unfold remove
        dsimp only
        rw [hplc]
        rfl
      · show ((Branch.children branch)[digit height id]?).join.bind _ = none
        rw [hplc]
        rfl
    | some child =>
      have hch := join_some.mp hplc
      have hidx : digit height id < 64 := Branch.Valid.children h ▸ (List.getElem?_eq_some_iff.mp hch).1
      have hvld := Branch.Valid.child h _ _ hch
      rcases ih (rest height id) hvld with ⟨hrem, hnone⟩ | ⟨value, left, hrem, hremd⟩
      · refine .inl ⟨?_, by rw [get_child hch, hnone]⟩
        unfold remove
        dsimp only
        rw [hplc, Option.bind_eq_bind, Option.bind_some, hrem]
        rfl
      · have hold : branch.get id = some value := by rw [get_child hch, hremd.old]
        have hpos : 0 < Branch.len branch := len_pos h hold
        let branch' : Block α (height + 1) := (⟨(Branch.children branch).set (digit height id) left,
          BitSet.remove (Branch.full branch) (digit height id), Branch.len branch - 1⟩ : Branch (Block α height))
        have hbr : branch'.Valid := by
          refine Branch.Valid.set h hidx hch hremd.valid ?_ (fun i _ hne => ?_) ?_
          · rw [BitSet.contains_remove]
            refine ⟨fun ⟨_, hne⟩ => absurd rfl hne, ?_⟩
            rintro ⟨child', rfl, hfull⟩
            have hsome := (isFull_iff (hremd.valid _ rfl)).mp hfull _ (rest_lt height id)
            rw [show child'.get (rest height id) = none by simpa using hremd.get (rest height id)] at hsome
            cases hsome
          · rw [BitSet.contains_remove, and_iff_left hne]
          · have := hremd.len
            simp only [Option.elim_some]
            omega
        refine .inr ⟨value, if branch'.len = 0 then none else some branch', ?_,
          .of_block hold hbr (get_set_child h hch hremd.get _ _) (Nat.sub_add_cancel hpos)⟩
        unfold remove
        dsimp only
        rw [hplc, Option.bind_eq_bind, Option.bind_some, hrem]
        rfl

/-! ## Trimming -/

theorem total_map (weight : β → Nat) {f : Option β → Option β}
    (hf : ∀ entry, (f entry).elim 0 weight = entry.elim 0 weight) (entries : List (Option β)) :
    total weight (entries.map f) = total weight entries := by
  unfold total
  rw [map_map]
  exact congrArg List.sum (map_congr_left fun entry _ => hf entry)

theorem len_pruneEmpty (block : Block α height) : block.pruneEmpty.len = block.len := by
  cases height <;> rfl

theorem isFull_pruneEmpty (block : Block α height) : block.pruneEmpty.isFull = block.isFull := by
  cases height <;> rfl

theorem pruneEmpty_spec : ∀ {block : Block α height}, block.Valid →
    block.pruneEmpty.Valid ∧ ∀ id, block.pruneEmpty.get id = block.get id := by
  induction height with
  | zero => exact fun h => ⟨h, fun _ => rfl⟩
  | succ height ih =>
    intro branch h
    let prune (child : Option (Block α height)) : Option (Block α height) :=
      child.bind fun child => if child.len = 0 then none else some child.pruneEmpty
    have hent (i : Nat) : ((Branch.children branch.pruneEmpty)[i]?) = ((Branch.children branch)[i]?).map prune :=
      getElem?_map
    have hprun {i : Nat} {child : Block α height}
        (hch : (Branch.children branch.pruneEmpty)[i]? = some (some child)) :
        ∃ old, (Branch.children branch)[i]? = some (some old) ∧ old.len ≠ 0 ∧ child = old.pruneEmpty := by
      rw [hent, Option.map_eq_some_iff] at hch
      obtain ⟨entry, hent, hprune⟩ := hch
      obtain ⟨old, rfl, hold⟩ := Option.bind_eq_some_iff.mp hprune
      split at hold
      · cases hold
      · rename_i hlen
        exact ⟨old, hent, hlen, (Option.some.inj hold).symm⟩
    refine ⟨⟨?_, fun i child hch => ?_, fun i hi => ?_, ?_⟩, fun id => ?_⟩
    · exact (length_map _).trans (Branch.Valid.children h)
    · obtain ⟨old, hold, -, rfl⟩ := hprun hch
      exact (ih (Branch.Valid.child h _ _ hold)).1
    · rw [show Branch.full branch.pruneEmpty = Branch.full branch from rfl, Branch.Valid.full h i hi]
      constructor
      · rintro ⟨child, hch, hfull⟩
        have hvld := Branch.Valid.child h _ _ hch
        obtain ⟨value, hval⟩ := Option.isSome_iff_exists.mp ((isFull_iff hvld).mp hfull 0 (size_pos height))
        refine ⟨child.pruneEmpty, ?_, (isFull_pruneEmpty child).trans hfull⟩
        rw [hent, hch]
        exact congrArg some (if_neg (Nat.ne_of_gt (len_pos hvld hval)))
      · rintro ⟨child, hch, hfull⟩
        obtain ⟨old, hold, -, rfl⟩ := hprun hch
        exact ⟨old, hold, (isFull_pruneEmpty old).symm.trans hfull⟩
    · refine (Branch.Valid.len h).trans (total_map len (fun entry => ?_) _).symm
      cases entry with
      | none => rfl
      | some child =>
        by_cases hzero : child.len = 0
        · simp [hzero]
        · simp [hzero, len_pruneEmpty]
    · show ((Branch.children branch.pruneEmpty)[digit height id]?).join.bind _ = _
      rw [hent]
      show _ = ((Branch.children branch)[digit height id]?).join.bind _
      rcases hplc : (Branch.children branch)[digit height id]? with _ | _ | child
      · rfl
      · rfl
      · have hvld := Branch.Valid.child h _ _ hplc
        by_cases hzero : child.len = 0
        · simp [prune, hzero, (len_eq_zero hvld).mp hzero]
        · simp [prune, hzero, (ih hvld).2]

theorem len_modify (change : α → α) (block : Block α height) (id : Nat) :
    (block.modify change id).len = block.len := by
  cases height <;> rfl

theorem isFull_modify (change : α → α) (block : Block α height) (id : Nat) :
    (block.modify change id).isFull = block.isFull := by
  cases height <;> rfl

theorem modify_spec (change : α → α) : ∀ {block : Block α height} (id : Nat), block.Valid →
    (block.modify change id).Valid ∧
      ∀ j, (block.modify change id).get j = if j = id then (block.get id).map change else block.get j := by
  induction height with
  | zero =>
    intro leaf id h
    have hslot (j : Nat) : (((Leaf.slots leaf).modify id (Option.map change))[j]?).join =
        if j = id then ((Leaf.slots leaf)[id]?.join).map change else ((Leaf.slots leaf)[j]?).join :=
      getElem?_join_modify change id j
    have hvld : Leaf.Valid ⟨(Leaf.slots leaf).modify id (Option.map change), Leaf.full leaf, Leaf.len leaf⟩ := by
      have hwords : (Leaf.full leaf).length = 4 := Leaf.Valid.words h
      refine ⟨hwords, ?_, fun i hi => ?_, ?_⟩
      · exact (length_modify ..).trans_le (Leaf.Valid.slots h)
      · refine (Leaf.Valid.full h i hi).trans ?_
        dsimp only
        rw [hslot]
        split
        · rename_i heq
          rw [heq, Option.isSome_map]
        · rfl
      · exact (Leaf.Valid.len h).trans (total_modify (f := change) (fun _ => rfl) id).symm
    exact ⟨hvld, hslot⟩
  | succ height ih =>
    intro branch id h
    let change' (child : Block α height) := child.modify change (rest height id)
    let children := (Branch.children branch).modify (digit height id) (Option.map change')
    have hent (i : Nat) : (children[i]?).join = if i = digit height id then
        ((Branch.children branch)[digit height id]?.join).map change' else ((Branch.children branch)[i]?).join :=
      getElem?_join_modify change' _ i
    have hchgd (i : Nat) (child : Block α height) : children[i]? = some (some child) ↔
        ∃ old, (Branch.children branch)[i]? = some (some old) ∧
          child = if i = digit height id then change' old else old := by
      rw [← join_some, hent]
      split
      · rename_i heq
        subst heq
        rw [Option.map_eq_some_iff]
        exact exists_congr fun old => and_congr join_some eq_comm
      · simp only [join_some, exists_eq_right']
    have hfull (i : Nat) (old : Block α height) :
        (if i = digit height id then change' old else old).isFull = old.isFull := by
      split
      · exact isFull_modify change old _
      · rfl
    have hvld : Branch.Valid Valid isFull len (⟨children, Branch.full branch, Branch.len branch⟩ :
        Branch (Block α height)) := by
      refine ⟨?_, fun i child hch => ?_, fun i hi => ?_, ?_⟩
      · exact (length_modify ..).trans (Branch.Valid.children h)
      · obtain ⟨old, hold, rfl⟩ := (hchgd i child).mp hch
        have hvld := Branch.Valid.child h _ _ hold
        split
        · exact (ih _ hvld).1
        · exact hvld
      · rw [Branch.Valid.full h i hi]
        constructor
        · rintro ⟨child, hch, hsome⟩
          exact ⟨_, (hchgd i _).mpr ⟨child, hch, rfl⟩, (hfull i child).trans hsome⟩
        · rintro ⟨_, hch, hsome⟩
          obtain ⟨old, hold, rfl⟩ := (hchgd i _).mp hch
          exact ⟨old, hold, (hfull i old).symm.trans hsome⟩
      · exact (Branch.Valid.len h).trans (total_modify (fun child => len_modify change child _) _).symm
    refine ⟨hvld, fun j => ?_⟩
    show (children[digit height j]?).join.bind _ = if j = id then
      (((Branch.children branch)[digit height id]?).join.bind
      fun child => child.get (rest height id)).map change else
      ((Branch.children branch)[digit height j]?).join.bind fun child => child.get (rest height j)
    rw [hent]
    by_cases hdig : digit height j = digit height id
    · rw [if_pos hdig, hdig]
      cases hplc : ((Branch.children branch)[digit height id]?).join with
      | none => split <;> rfl
      | some child =>
        have hget := (ih (rest height id) (Branch.Valid.child h _ _ (join_some.mp hplc))).2 (rest height j)
        rw [Option.map_some, Option.bind_some, Option.bind_some, Option.bind_some, hget]
        by_cases hrest : rest height j = rest height id
        · rw [if_pos hrest, if_pos (ext_digit hdig hrest)]
        · rw [if_neg hrest, if_neg (by rintro rfl; exact hrest rfl)]
    · rw [if_neg hdig, if_neg (by rintro rfl; exact hdig rfl)]

end Block

end Kagari.Gc
