import Kagari.Hir.ConstOps
import Kagari.Lib.Cursor
import Kagari.Types.IntegerMethod

/-!
# Integer ranges

A range keeps its endpoints as 64 bits; whether they are there depends on its kind, and how they read on its item
type. `RangeValue.at` gives the item at an offset, and an iterator is a range with an offset.

`RangeValue.items` says what the integers of a range are. Iteration gives them in order (`range_iteration`).
-/

namespace Kagari

namespace RangeKind

def hasStart : RangeKind → Bool
  | .exclusive | .inclusive | .from => true
  | .to | .toInclusive | .full => false

def hasEnd : RangeKind → Bool
  | .exclusive | .inclusive | .to | .toInclusive => true
  | .from | .full => false

def isInclusive : RangeKind → Bool
  | .inclusive | .toInclusive => true
  | .exclusive | .from | .to | .full => false

end RangeKind

variable {n : Int} {range boundTy : Ty} {valid : Ty → Ty → Bool}

namespace Runtime

open Lib

/-- `std::ops::Bound`. -/
inductive Bound (α : Type) where
  | included (value : α)
  | excluded (value : α)
  | unbounded

structure RangeValue where
  kind : RangeKind
  item : BuiltinType
  /-- Signed endpoints keep their bits; zero stands for one that is not there. -/
  start : BitVec 64
  stop : BitVec 64

variable {H : Type}

def invalidRange : RuntimeError := ⟨.scriptTrap, "invalid range value"⟩

/-- `integer_value`. -/
def rangeItem (ty : BuiltinType) (n : Int) : Value H :=
  match ty with
  | .i8 | .i16 | .i32 => .i32 (BitVec.ofInt 32 n)
  | .u64 => .u64 (BitVec.ofInt 64 n)
  | _ => .i64 (BitVec.ofInt 64 n)

namespace RangeValue

/-- The bits of an endpoint. -/
def endpointBits (item : BuiltinType) : Option (Value H) → Except RuntimeError (BitVec 64)
  | none => .ok 0
  | some value => (readInteger item value).map (BitVec.ofInt 64)

def new (ty : Ty) (start stop : Option (Value H)) : Except RuntimeError RangeValue :=
  match ty with
  | .range (.builtin item) kind =>
    if kind.hasStart ≠ start.isSome ∨ kind.hasEnd ≠ stop.isSome ∨ kind = .full ∧ item ≠ .unit ∨
        kind ≠ .full ∧ item.integerLayout.isNone then .error invalidRange
    else do
      let start ← endpointBits item start
      let stop ← endpointBits item stop
      return ⟨kind, item, start, stop⟩
  | _ => .error invalidRange

def endpoint (r : RangeValue) (bits : BitVec 64) : Int :=
  if r.item.integerLayout.any Prod.snd then bits.toInt else bits.toNat

def isOf (r : RangeValue) (ty : Ty) : Bool :=
  match ty with
  | .range (.builtin item) kind => decide (kind = r.kind) && decide (item = r.item)
  | _ => false

/-- `valid` stands for `operations::range_bound_valid`. -/
def bound (valid : Ty → Ty → Bool) (r : RangeValue) (range boundTy : Ty) (upper : Bool) :
    Except RuntimeError (Bound (Value H)) :=
  if !r.isOf range || !valid range boundTy then .error invalidRange
  else
    let value :=
      if upper then if r.kind.hasEnd then some (r.endpoint r.stop) else none
      else if r.kind.hasStart then some (r.endpoint r.start) else none
    match value.map (rangeItem r.item) with
    | none => .ok .unbounded
    | some value => if upper && !r.kind.isInclusive then .ok (.excluded value) else .ok (.included value)

def at_ (r : RangeValue) (offset : Nat) : Except RuntimeError (Option (Value H)) :=
  if !r.kind.hasStart then .error invalidRange
  else
    match i128Checked offset with
    | none => .error invalidRange
    | some offset =>
      match i128Checked (r.endpoint r.start + offset) with
      | none => .error invalidRange
      | some n =>
        if r.kind.hasEnd ∧ (r.endpoint r.stop < n ∨ n = r.endpoint r.stop ∧ ¬r.kind.isInclusive) then .ok none
        else
          match r.item.integerLayout with
          | none => .error invalidRange
          | some (bits, signed) =>
            if inBounds bits signed n then .ok (some (rangeItem r.item n)) else .error (trap "integer overflow")

/-- `advance_iter_with` on a range, before it publishes: the item at a position of 128 bits, and the next position. -/
def preview (r : RangeValue) (position : Nat) : Except RuntimeError (Option (Value H) × Nat) :=
  match r.at_ position with
  | .error e => .error e
  | .ok item =>
    if position + 1 < 2 ^ 128 then .ok (item, if item.isSome then position + 1 else position)
    else .error (trap "invalid or structurally modified iterator")

/-- The integers of a range: in the domain of its item type, and between its endpoints. -/
def items (ty : IntegerType) (kind : RangeKind) (start stop : Option Int) : Set Int :=
  { n | inBounds ty.layout.1 ty.layout.2 n = true ∧ (∀ s, start = some s → s ≤ n) ∧
    ∀ e, stop = some e → if kind.isInclusive then n ≤ e else n < e }

/-! ## Endpoints -/

section Endpoints

variable {ty : IntegerType} {kind : RangeKind} {r : RangeValue}

theorem rangeItem_eq (ty : IntegerType) (n : Int) : (rangeItem ty.builtinType n : Value H) = Hir.carrier ty n := by
  cases ty <;> rfl

theorem readInteger_rangeItem (h : inBounds ty.layout.1 ty.layout.2 n = true) :
    readInteger ty.builtinType (rangeItem ty.builtinType n : Value H) = .ok n := by
  rw [rangeItem_eq, Hir.readInteger_carrier h]

theorem readInteger_inBounds {value : Value H} (h : readInteger ty.builtinType value = .ok n) :
    inBounds ty.layout.1 ty.layout.2 n = true := by
  unfold readInteger at h
  split at h
  · cases h
  · simp only [IntegerType.integerLayout_builtinType] at h
    split at h
    all_goals first
      | cases h
      | (split at h
         · rename_i hin
           cases h
           exact hin
         · cases h)

/-- The bits of an integer of the domain read as that integer. -/
theorem endpoint_ofInt (hitem : r.item = ty.builtinType) (h : inBounds ty.layout.1 ty.layout.2 n = true) :
    r.endpoint (BitVec.ofInt 64 n) = n := by
  obtain ⟨hsgn, huns⟩ := ty.bounds_le h
  unfold endpoint
  rw [hitem, IntegerType.integerLayout_builtinType]
  cases hs : ty.layout.2 with
  | true =>
    simp only [Option.any_some, hs, if_true]
    exact Hir.toInt_ofInt_64 (hsgn hs)
  | false =>
    simp only [Option.any_some, hs, Bool.false_eq_true, if_false]
    exact Hir.toNat_ofInt_64 (huns hs)

/-- The integer of an endpoint that is there. -/
def integer (ty : IntegerType) (value : Option (Value H)) : Option Int :=
  value.bind fun value => (readInteger ty.builtinType value).toOption

theorem endpointBits_ok {value : Option (Value H)} {bits : BitVec 64}
    (h : endpointBits ty.builtinType value = .ok bits) (hitem : r.item = ty.builtinType) :
    (integer ty value).isSome = value.isSome ∧ ∀ n, integer ty value = some n →
      r.endpoint bits = n ∧ inBounds ty.layout.1 ty.layout.2 n = true := by
  cases value with
  | none => exact ⟨rfl, nofun⟩
  | some value =>
    dsimp only [endpointBits] at h
    dsimp only [integer, Option.bind_some]
    cases hread : readInteger ty.builtinType value with
    | error e =>
      rw [hread] at h
      cases h
    | ok n =>
      rw [hread] at h
      cases h
      refine ⟨rfl, fun m hm => ?_⟩
      cases hm
      exact ⟨endpoint_ofInt hitem (readInteger_inBounds hread), readInteger_inBounds hread⟩

/-- What a range that is accepted keeps. -/
structure Accepted (ty : IntegerType) (kind : RangeKind) (start stop : Option Int) (r : RangeValue) : Prop where
  kept : r.kind = kind
  item : r.item = ty.builtinType
  hasStart : kind.hasStart = start.isSome
  hasEnd : kind.hasEnd = stop.isSome
  start : ∀ n, start = some n → r.endpoint r.start = n ∧ inBounds ty.layout.1 ty.layout.2 n = true
  stop : ∀ n, stop = some n → r.endpoint r.stop = n ∧ inBounds ty.layout.1 ty.layout.2 n = true

theorem accepted_new {start stop : Option (Value H)}
    (h : RangeValue.new (.range (.builtin ty.builtinType) kind) start stop = .ok r) :
    Accepted ty kind (integer ty start) (integer ty stop) r := by
  dsimp only [RangeValue.new] at h
  split at h
  · cases h
  rename_i hshp
  simp only [not_or, Decidable.not_not] at hshp
  obtain ⟨hst, hend, -, -⟩ := hshp
  obtain ⟨startBits, hstartBits, h⟩ := bind_ok.mp h
  obtain ⟨stopBits, hstopBits, h⟩ := bind_ok.mp h
  cases h
  have hlow := endpointBits_ok (r := ⟨kind, ty.builtinType, startBits, stopBits⟩) hstartBits rfl
  have hhigh := endpointBits_ok (r := ⟨kind, ty.builtinType, startBits, stopBits⟩) hstopBits rfl
  exact ⟨rfl, rfl, hst.trans hlow.1.symm, hend.trans hhigh.1.symm, hlow.2, hhigh.2⟩

/-! ## Iteration -/

/-- The first integer after a range that has a start. -/
def past (ty : IntegerType) (r : RangeValue) : Int :=
  if r.kind.hasEnd then if r.kind.isInclusive then r.endpoint r.stop + 1 else r.endpoint r.stop
  else (bounds ty.layout.1 ty.layout.2).2 + 1

/-- What comes after the last item. -/
def afterLast (r : RangeValue) : Except RuntimeError (Option (Value H)) :=
  if r.kind.hasEnd then .ok none else .error (trap "integer overflow")

variable {start stop : Option Int} {lo : Int}

theorem past_le (h : Accepted ty kind start stop r) : past ty r ≤ 2 ^ 64 := by
  unfold past
  have hend : r.kind.hasEnd = true → r.endpoint r.stop < 2 ^ 64 := by
    intro hend
    rw [h.kept, h.hasEnd] at hend
    obtain ⟨hi, rfl⟩ := Option.isSome_iff_exists.mp hend
    obtain ⟨heq, hin⟩ := h.stop hi rfl
    rw [inBounds_iff] at hin
    rw [heq]
    cases ty <;> simp [IntegerType.layout, bounds] at hin ⊢ <;> omega
  split
  · have := hend ‹_›
    split <;> omega
  · cases ty <;> simp [IntegerType.layout, bounds]

/-- Between its start and its end a range is in the domain. -/
theorem inBounds_between (h : Accepted ty kind start stop r) (hlo : start = some lo) (hle : lo ≤ n)
    (hlt : n < past ty r) : inBounds ty.layout.1 ty.layout.2 n = true := by
  have hst := (h.start lo hlo).2
  rw [inBounds_iff] at hst ⊢
  unfold past at hlt
  split at hlt
  · rename_i hend
    rw [h.kept, h.hasEnd] at hend
    obtain ⟨hi, rfl⟩ := Option.isSome_iff_exists.mp hend
    obtain ⟨heq, hin⟩ := h.stop hi rfl
    rw [inBounds_iff] at hin
    rw [heq] at hlt
    split at hlt <;> omega
  · omega

theorem mem_items_iff (h : Accepted ty kind start stop r) (hlo : start = some lo) (n : Int) :
    n ∈ items ty kind start stop ↔ lo ≤ n ∧ n < past ty r := by
  unfold items
  rw [Set.mem_ofPred_eq]
  constructor
  · rintro ⟨hin, hfrom, hto⟩
    refine ⟨hfrom lo hlo, ?_⟩
    unfold past
    split
    · rename_i hend
      rw [h.kept, h.hasEnd] at hend
      obtain ⟨hi, rfl⟩ := Option.isSome_iff_exists.mp hend
      rw [(h.stop hi rfl).1, h.kept]
      have := hto hi rfl
      split at this <;> rename_i hincl
      · rw [if_pos hincl]
        omega
      · rw [if_neg hincl]
        exact this
    · rw [inBounds_iff] at hin
      omega
  · rintro ⟨hle, hlt⟩
    refine ⟨inBounds_between h hlo hle hlt, fun s hs => ?_, fun e he => ?_⟩
    · cases hlo.symm.trans hs
      exact hle
    · have hend : r.kind.hasEnd = true := by rw [h.kept, h.hasEnd, he]; rfl
      unfold past at hlt
      rw [if_pos hend, (h.stop e he).1, h.kept] at hlt
      split <;> rename_i hincl
      · rw [if_pos hincl] at hlt
        omega
      · rw [if_neg hincl] at hlt
        exact hlt

/-- The item at an offset; no sum leaves the width it is formed in. -/
theorem at_eq (h : Accepted ty kind start stop r) (hlo : start = some lo) {offset : Nat} (hoff : offset ≤ 2 ^ 65) :
    r.at_ offset = if lo + offset < past ty r then .ok (some (rangeItem ty.builtinType (lo + offset) : Value H))
      else afterLast r := by
  obtain ⟨heq, hin⟩ := h.start lo hlo
  have hkind : r.kind.hasStart = true := by rw [h.kept, h.hasStart, hlo]; rfl
  have hwide : -2 ^ 63 ≤ lo ∧ lo < 2 ^ 64 := by
    rw [inBounds_iff] at hin
    cases ty <;> simp [IntegerType.layout, bounds] at hin ⊢ <;> omega
  have hpos : i128Checked (offset : Int) = some (offset : Int) := by
    unfold i128Checked
    rw [if_pos (by omega)]
  have hsum : i128Checked (lo + offset) = some (lo + offset) := by
    unfold i128Checked
    rw [if_pos (by omega)]
  unfold at_
  rw [hkind, hpos, heq]
  dsimp only
  rw [hsum, h.item, IntegerType.integerLayout_builtinType]
  simp only [Bool.not_true, Bool.false_eq_true, if_false]
  have hbtw := inBounds_between h hlo (n := lo + offset) (by omega)
  cases hend : r.kind.hasEnd with
  | true =>
    have hpast : past ty r = if r.kind.isInclusive then r.endpoint r.stop + 1 else r.endpoint r.stop := by
      simp [past, hend]
    by_cases hlt : lo + offset < past ty r
    · rw [if_pos hlt, if_neg, if_pos (hbtw hlt)]
      rw [hpast] at hlt
      rintro ⟨-, hgt | ⟨hlast, hexcl⟩⟩
      · split at hlt <;> omega
      · rw [if_neg hexcl] at hlt
        omega
    · rw [if_neg hlt, if_pos, afterLast, if_pos hend]
      rw [hpast] at hlt
      refine ⟨rfl, ?_⟩
      split at hlt
      · exact .inl (by omega)
      · rename_i hexcl
        by_cases hlast : lo + offset = r.endpoint r.stop
        · exact .inr ⟨hlast, hexcl⟩
        · exact .inl (by omega)
  | false =>
    have hpast : past ty r = (bounds ty.layout.1 ty.layout.2).2 + 1 := by simp [past, hend]
    rw [if_neg (fun hc => absurd hc.1 (by simp))]
    by_cases hlt : lo + offset < past ty r
    · rw [if_pos hlt, if_pos (hbtw hlt)]
    · rw [if_neg hlt, if_neg, afterLast, hend]
      · rfl
      · rw [hpast] at hlt
        rw [inBounds_iff]
        omega

theorem preview_ok {position : Nat} {item : Option (Value H)} (hat : r.at_ position = .ok item)
    (hpos : position + 1 < 2 ^ 128) :
    r.preview position = .ok (item, if item.isSome then position + 1 else position) := by
  rw [preview, hat]
  exact if_pos hpos

theorem run_preview (h : Accepted ty kind start stop r) (hlo : start = some lo) (m : Nat) :
    (Cursor.run (r.preview (H := H)) m 0).1 = (List.range m).map fun k =>
      if k < (past ty r - lo).toNat then .ok (some (rangeItem ty.builtinType (lo + k))) else afterLast r := by
  have hpast := past_le h
  have hwide : -2 ^ 63 ≤ lo := by
    have hin := (h.start lo hlo).2
    rw [inBounds_iff] at hin
    cases ty <;> simp [IntegerType.layout, bounds] at hin ⊢ <;> omega
  have hadvance (k : Nat) : Cursor.advance (r.preview (H := H)) .ok (min k (past ty r - lo).toNat) =
      (if k < (past ty r - lo).toNat then .ok (some (rangeItem ty.builtinType (lo + k))) else afterLast r,
        min (k + 1) (past ty r - lo).toNat) := by
    -- the position stays where the items end
    have hat := at_eq (H := H) h hlo (show min k (past ty r - lo).toNat ≤ 2 ^ 65 by omega)
    have hsmall : min k (past ty r - lo).toNat + 1 < 2 ^ 128 := by omega
    by_cases hk : k < (past ty r - lo).toNat
    · rw [Nat.min_eq_left (Nat.le_of_lt hk)] at hat hsmall ⊢
      rw [if_pos (by omega)] at hat
      rw [if_pos hk, Nat.min_eq_left hk]
      exact Cursor.advance_ok (preview_ok hat hsmall)
    · rw [Nat.min_eq_right (by omega)] at hat hsmall ⊢
      rw [if_neg (by omega)] at hat
      rw [if_neg hk, Nat.min_eq_right (by omega)]
      unfold afterLast at hat ⊢
      split <;> rename_i hend
      · rw [if_pos hend] at hat
        exact Cursor.advance_ok (preview_ok hat hsmall)
      · rw [if_neg hend] at hat
        apply Cursor.advance_error
        rw [preview, hat]
  have hrun := Cursor.run_states hadvance m 0
  simp only [Nat.zero_le, inf_of_le_left, Nat.zero_add] at hrun
  rw [hrun]

/-! ## Bounds -/

/-- What a lower bound leaves, by the integer that it carries. -/
def Above (ty : IntegerType) (bound : Bound (Value H)) (n : Int) : Prop :=
  match bound with
  | .included value => ∃ e, readInteger ty.builtinType value = .ok e ∧ e ≤ n
  | .excluded value => ∃ e, readInteger ty.builtinType value = .ok e ∧ e < n
  | .unbounded => True

def Below (ty : IntegerType) (bound : Bound (Value H)) (n : Int) : Prop :=
  match bound with
  | .included value => ∃ e, readInteger ty.builtinType value = .ok e ∧ n ≤ e
  | .excluded value => ∃ e, readInteger ty.builtinType value = .ok e ∧ n < e
  | .unbounded => True

/-- Of a range of the type, with a type that bounds may have, both bounds are returned. -/
theorem bound_ok (hof : r.isOf range = true)
    (hvld : valid range boundTy = true) (upper : Bool) :
    ∃ bound : Bound (Value H), r.bound valid range boundTy upper = .ok bound := by
  unfold bound
  rw [hof, hvld]
  dsimp only
  cases (if upper then _ else _ : Option Int) with
  | none => exact ⟨_, rfl⟩
  | some n =>
    cases (upper && !r.kind.isInclusive) with
    | false => exact ⟨_, rfl⟩
    | true => exact ⟨_, rfl⟩

theorem bound_lower (h : Accepted ty kind start stop r)
    {lower : Bound (Value H)} (hbnd : r.bound valid range boundTy false = .ok lower) (n : Int) :
    Above ty lower n ↔ ∀ s, start = some s → s ≤ n := by
  unfold bound at hbnd
  split at hbnd
  · cases hbnd
  simp only [Bool.false_eq_true, if_false, Bool.false_and, h.kept, h.item] at hbnd
  cases start with
  | none =>
    rw [h.hasStart] at hbnd
    cases hbnd
    exact iff_of_true trivial nofun
  | some s =>
    obtain ⟨heq, hin⟩ := h.start s rfl
    rw [h.hasStart, heq] at hbnd
    cases hbnd
    simp [Above, readInteger_rangeItem hin]

theorem bound_upper (h : Accepted ty kind start stop r)
    {upper : Bound (Value H)} (hbnd : r.bound valid range boundTy true = .ok upper) (n : Int) :
    Below ty upper n ↔ ∀ e, stop = some e → if kind.isInclusive then n ≤ e else n < e := by
  unfold bound at hbnd
  split at hbnd
  · cases hbnd
  simp only [if_true, Bool.true_and, h.kept, h.item] at hbnd
  cases stop with
  | none =>
    rw [h.hasEnd] at hbnd
    cases hbnd
    exact iff_of_true trivial nofun
  | some e =>
    obtain ⟨heq, hin⟩ := h.stop e rfl
    rw [h.hasEnd, heq] at hbnd
    cases hincl : kind.isInclusive with
    | true =>
      rw [hincl] at hbnd
      cases hbnd
      simp [Below, readInteger_rangeItem hin]
    | false =>
      rw [hincl] at hbnd
      cases hbnd
      simp [Below, readInteger_rangeItem hin]

end Endpoints

/-- An iterator of a range with a start gives its integers in order, each once, and then nothing for ever; one without
an end reaches the greatest integer of its type, and then fails for ever. Both bounds are returned, for the type of
the range and a type that bounds may have, and stand for the same integers. -/
theorem range_exact (ty : IntegerType) (kind : RangeKind) (start stop : Option (Value H)) (r : RangeValue)
    (h : RangeValue.new (.range (.builtin ty.builtinType) kind) start stop = .ok r) :
    (kind.hasStart → ∃ (lo : Int) (count : Nat), integer ty start = some lo ∧
      (∀ n, n ∈ items ty kind (integer ty start) (integer ty stop) ↔ ∃ k < count, n = lo + k) ∧
      (∀ k < count, readInteger ty.builtinType (rangeItem ty.builtinType (lo + k) : Value H) = .ok (lo + k)) ∧
      ∀ m, (Cursor.run r.preview m 0).1 = (List.range m).map fun k =>
        if k < count then .ok (some (rangeItem ty.builtinType (lo + k) : Value H))
        else if kind.hasEnd then .ok none else .error (trap "integer overflow")) ∧
    ∀ valid range boundTy, (r.isOf range = true → valid range boundTy = true → ∃ lower upper : Bound (Value H),
        r.bound valid range boundTy false = .ok lower ∧ r.bound valid range boundTy true = .ok upper) ∧
      ∀ lower upper : Bound (Value H), r.bound valid range boundTy false = .ok lower →
        r.bound valid range boundTy true = .ok upper → ∀ n, inBounds ty.layout.1 ty.layout.2 n = true →
          (n ∈ items ty kind (integer ty start) (integer ty stop) ↔ Above ty lower n ∧ Below ty upper n) := by
  have hacc := accepted_new h
  constructor
  · intro hkind
    rw [hacc.hasStart] at hkind
    obtain ⟨lo, hlo⟩ := Option.isSome_iff_exists.mp hkind
    refine ⟨lo, (past ty r - lo).toNat, hlo, fun n => ?_, fun k hk => ?_, fun m => ?_⟩
    · rw [mem_items_iff hacc hlo]
      constructor
      · rintro ⟨hle, hlt⟩
        exact ⟨(n - lo).toNat, by omega, by omega⟩
      · rintro ⟨k, hk, rfl⟩
        omega
    · exact readInteger_rangeItem (inBounds_between hacc hlo (by omega) (by omega))
    · rw [run_preview hacc hlo, afterLast, hacc.kept]
  · intro valid range boundTy
    refine ⟨fun hof hvld => ?_, fun lower upper hlower hupper n hin => ?_⟩
    · obtain ⟨lower, hlower⟩ := bound_ok (H := H) hof hvld false
      obtain ⟨upper, hupper⟩ := bound_ok (H := H) hof hvld true
      exact ⟨lower, upper, hlower, hupper⟩
    rw [bound_lower hacc hlower, bound_upper hacc hupper]
    exact and_iff_right hin

/-- At the end of the unsigned domain. -/
theorem range_exact_greatest : ∃ (lo : Int) (count : Nat) (lower upper : Bound (Value Unit)),
    RangeValue.integer .u64 (some (.u64 18446744073709551614 : Value Unit)) = some lo ∧
    (∀ m, (Cursor.run (RangeValue.preview (H := Unit) ⟨.inclusive, .u64, 18446744073709551614,
      18446744073709551615⟩) m 0).1 =
      (List.range m).map fun k => if k < count then .ok (some (rangeItem .u64 (lo + k))) else .ok none) ∧
    RangeValue.bound (fun _ _ => true) ⟨.inclusive, .u64, 18446744073709551614, 18446744073709551615⟩
      (.range (.builtin .u64) .inclusive) (.builtin .u64) false = .ok lower ∧
    RangeValue.bound (fun _ _ => true) ⟨.inclusive, .u64, 18446744073709551614, 18446744073709551615⟩
      (.range (.builtin .u64) .inclusive) (.builtin .u64) true = .ok upper := by
  obtain ⟨hits, hbnds⟩ := range_exact .u64 .inclusive (some (.u64 18446744073709551614 : Value Unit))
    (some (.u64 18446744073709551615)) _ rfl
  obtain ⟨lo, count, hlo, -, -, hrun⟩ := hits rfl
  obtain ⟨lower, upper, hlower, hupper⟩ :=
    (hbnds (fun _ _ => true) (.range (.builtin .u64) .inclusive) (.builtin .u64)).1 rfl rfl
  exact ⟨lo, count, lower, upper, hlo, hrun, hlower, hupper⟩

end RangeValue

end Runtime

end Kagari
