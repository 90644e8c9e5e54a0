import Mathlib.Data.List.Induction
import Mathlib.Data.List.TakeWhile
import Kagari.Lib.Text

/-!
# The line index

`kagari-source/src/line_index.rs`. Lines end at LF or CRLF. A position is a line and a column, in bytes or in
UTF-16 units.

A source byte is LF or CR exactly when it is that character, so the loop of `new` goes over characters. It
keeps the character before, which decides what the line ends with.
-/

namespace Kagari.Source

open Lib.Text List Option

inductive PositionEncoding where
  | utf8
  | utf16
deriving DecidableEq

structure Position where
  line : Nat
  character : Nat
deriving DecidableEq

structure LineIndex where
  starts : List Nat
  ends : List Nat
deriving DecidableEq

/-- The loop of `new`, behind the character `last`. -/
def scanLines (offset : Nat) (last : Option Char) : List Char → List Nat × List Nat
  | [] => ([], [])
  | ch :: rest =>
    let (starts, ends) := scanLines (offset + ch.utf8Size) (some ch) rest
    if ch = '\n' then ((offset + 1) :: starts, (if last = some '\r' then offset - 1 else offset) :: ends)
    else (starts, ends)

/-- `char::len_utf16`. -/
def lenUtf16 (ch : Char) : Nat := if ch.toNat < 0x10000 then 1 else 2

/-- The units of a text. -/
def units (encoding : PositionEncoding) (text : List Char) : Nat :=
  match encoding with
  | .utf8 => size text
  | .utf16 => (text.map lenUtf16).sum

/-- The loop of `offset` over the characters of a line, with their offsets. -/
def offsetUtf16 (character start : Nat) : Nat → Nat → List Char → Option Nat
  | offset, passed, [] => if passed = character then some (start + offset) else none
  | offset, passed, ch :: rest =>
    if passed = character then some (start + offset)
    else if passed + lenUtf16 ch > character then none
    else offsetUtf16 character start (offset + ch.utf8Size) (passed + lenUtf16 ch) rest

/-- `str::is_char_boundary`. -/
def isCharBoundary (text : List Char) (offset : Nat) : Bool := (dropBytes text offset).isSome

namespace LineIndex

def new (text : List Char) : LineIndex :=
  let (starts, ends) := scanLines 0 none text
  ⟨0 :: starts, ends ++ [size text]⟩

/-- The starts are sorted, so that `partition_point` is the length of the first part. -/
def position (index : LineIndex) (text : List Char) (offset : Nat) (encoding : PositionEncoding) : Option Position := do
  if !isCharBoundary text offset then none
  else
    let point := (index.starts.takeWhile fun start => start ≤ offset).length
    if point = 0 then none
    else
      let line := point - 1
      let stop ← index.ends[line]?
      if offset > stop then none
      else
        let start ← index.starts[line]?
        let before ← slice text start offset
        some ⟨line, units encoding before⟩

def offset (index : LineIndex) (text : List Char) (position : Position) (encoding : PositionEncoding) : Option Nat := do
  let start ← index.starts[position.line]?
  let stop ← index.ends[position.line]?
  let line ← slice text start stop
  match encoding with
  | .utf8 =>
    if position.character ≤ size line ∧ isCharBoundary line position.character then
      some (start + position.character)
    else none
  | .utf16 => offsetUtf16 position.character start 0 0 line

end LineIndex

/-! ## Lines -/

section Lines

variable {left right : List Char}

/-- The line breaks before an offset. -/
def breaks (left : List Char) : Nat := left.count '\n'

/-- What stands before an offset on its line. -/
def column (left : List Char) : List Char := (left.reverse.takeWhile fun ch => ch ≠ '\n').reverse

/-- What follows an offset on its line; a CR before the LF belongs to the line break. -/
def lineRest : List Char → List Char
  | [] => []
  | '\n' :: _ => []
  | '\r' :: '\n' :: _ => []
  | ch :: rest => ch :: lineRest rest

/-- Between the CR and the LF of a line break. -/
def InsideBreak (left right : List Char) : Prop := left.getLast? = some '\r' ∧ right.head? = some '\n'

instance : Decidable (InsideBreak left right) := inferInstanceAs (Decidable (_ ∧ _))

theorem column_append (h : '\n' ∉ right) : column (left ++ right) = column left ++ right := by
  have hall : ∀ ch ∈ right.reverse, decide (ch ≠ '\n') = true := by
    intro ch hch
    refine decide_eq_true ?_
    rintro rfl
    exact h (mem_reverse.mp hch)
  unfold column
  rw [reverse_append, takeWhile_append_of_pos hall, reverse_append, reverse_reverse]

/-- A text up to the line of its end, and that line. -/
theorem exists_column (left : List Char) : ∃ before, left = before ++ column left ∧
    (before = [] ∨ before.getLast? = some '\n') ∧ '\n' ∉ column left := by
  refine ⟨(left.reverse.dropWhile fun ch => ch ≠ '\n').reverse, ?_, ?_, ?_⟩
  · unfold column
    rw [← reverse_append, takeWhile_append_dropWhile, reverse_reverse]
  · cases hdrop : left.reverse.dropWhile fun ch => ch ≠ '\n' with
    | nil => exact .inl rfl
    | cons ch rest =>
      have hhead := head?_dropWhile_not (fun ch => decide (ch ≠ '\n')) left.reverse
      rw [hdrop] at hhead
      refine .inr ?_
      rw [getLast?_reverse, head?_cons]
      simpa using hhead
  · intro hmem
    unfold column at hmem
    have := mem_takeWhile_imp (mem_reverse.mp hmem)
    simp at this

theorem column_of_break (h : left = [] ∨ left.getLast? = some '\n') : column left = [] := by
  rcases h with rfl | h
  · rfl
  · obtain ⟨before, rfl⟩ := getLast?_eq_some_iff.mp h
    unfold column
    rw [reverse_append]
    simp

/-- The rest of a line is followed by its break. -/
theorem lineRest_append (right : List Char) : ∃ after, right = lineRest right ++ after ∧ '\n' ∉ lineRest right ∧
    (after = [] ∨ after.head? = some '\n' ∧ (lineRest right).getLast? ≠ some '\r' ∨
      ∃ rest, after = '\r' :: '\n' :: rest) := by
  fun_induction lineRest right with
  | case1 => exact ⟨[], rfl, not_mem_nil, .inl rfl⟩
  | case2 rest => exact ⟨'\n' :: rest, rfl, not_mem_nil, .inr (.inl ⟨rfl, nofun⟩)⟩
  | case3 rest => exact ⟨_, rfl, not_mem_nil, .inr (.inr ⟨rest, rfl⟩)⟩
  | case4 ch rest hbreak hcrlf ih =>
    obtain ⟨after, hrest, hnone, haft⟩ := ih
    refine ⟨after, by rw [cons_append, ← hrest], ?_, ?_⟩
    · rw [mem_cons, not_or]
      exact ⟨fun heq => hbreak heq.symm, hnone⟩
    · refine haft.imp id (Or.imp ?_ id)
      rintro ⟨hhead, hlast⟩
      refine ⟨hhead, ?_⟩
      cases hline : lineRest rest with
      | nil =>
        rw [hline, nil_append] at hrest
        rintro heq
        obtain rfl : ch = '\r' := by simpa using heq
        obtain ⟨tail, rfl⟩ := head?_eq_some_iff.mp hhead
        exact hcrlf tail rfl hrest
      | cons next line =>
        rw [hline] at hlast
        rwa [getLast?_cons_cons]

/-- The rest of a line, behind more of it. -/
theorem lineRest_cons {middle : List Char} (h : '\n' ∉ middle) (hinsd : ¬InsideBreak middle right) :
    lineRest (middle ++ right) = middle ++ lineRest right := by
  induction middle with
  | nil => rfl
  | cons ch middle ih =>
    rw [mem_cons, not_or] at h
    have hrest : lineRest (middle ++ right) = middle ++ lineRest right := by
      refine ih h.2 (fun hin => hinsd ⟨?_, hin.2⟩)
      cases middle with
      | nil => cases hin.1
      | cons next middle => rw [getLast?_cons_cons, hin.1]
    rw [cons_append, cons_append, ← hrest, lineRest]
    · exact fun heq => h.1 heq.symm
    · rintro rest rfl hcrlf
      cases middle with
      | nil =>
        rw [nil_append] at hcrlf
        exact hinsd ⟨rfl, by rw [hcrlf]; rfl⟩
      | cons next middle =>
        obtain ⟨rfl, -⟩ := cons.inj hcrlf
        exact h.2 mem_cons_self

end Lines

/-! ## The index of a text -/

theorem scanLines_append (left right : List Char) : ∀ offset last,
    scanLines offset last (left ++ right) =
      ((scanLines offset last left).1 ++ (scanLines (offset + size left) (left.getLast?.or last) right).1,
        (scanLines offset last left).2 ++ (scanLines (offset + size left) (left.getLast?.or last) right).2) := by
  induction left with
  | nil =>
    intro offset last
    rfl
  | cons ch left ih =>
    intro offset last
    have hlast : (ch :: left).getLast?.or last = left.getLast?.or (some ch) := by
      cases left with
      | nil => rfl
      | cons next left =>
        rw [getLast?_cons_cons, getLast?_cons]
        rfl
    rw [cons_append, scanLines, ih, scanLines, hlast, size_cons, ← Nat.add_assoc]
    dsimp only
    split <;> rfl

theorem length_scanLines (text : List Char) : ∀ offset last,
    (scanLines offset last text).1.length = breaks text ∧ (scanLines offset last text).2.length = breaks text := by
  induction text with
  | nil => exact fun _ _ => ⟨rfl, rfl⟩
  | cons ch text ih =>
    intro offset last
    obtain ⟨hstarts, hends⟩ := ih (offset + ch.utf8Size) (some ch)
    unfold scanLines breaks
    dsimp only
    by_cases hbreak : ch = '\n'
    · subst hbreak
      rw [if_pos rfl, count_cons_self]
      exact ⟨congrArg (· + 1) hstarts, congrArg (· + 1) hends⟩
    · rw [if_neg hbreak, count_cons_of_ne hbreak]
      exact ⟨hstarts, hends⟩

/-- The starts that a scan finds lie behind a line break of the scanned text. -/
theorem scanLines_range (text : List Char) : ∀ {offset last start},
    start ∈ (scanLines offset last text).1 → offset < start ∧ start ≤ offset + size text := by
  induction text with
  | nil => exact fun h => absurd h not_mem_nil
  | cons ch text ih =>
    intro offset last start hmem
    have hsize := ch.utf8Size_pos
    have hrest (h : start ∈ (scanLines (offset + ch.utf8Size) (some ch) text).1) :
        offset < start ∧ start ≤ offset + size (ch :: text) := by
      have := ih h
      rw [size_cons]
      omega
    unfold scanLines at hmem
    dsimp only at hmem
    split at hmem
    · rcases mem_cons.mp hmem with rfl | hmem
      · rw [size_cons]
        omega
      · exact hrest hmem
    · exact hrest hmem

/-- The first end that a scan finds, or the end of the text. -/
theorem head_scanLines (text : List Char) : ∀ {offset last},
    ((scanLines offset last text).2 ++ [offset + size text])[0]? =
      some (if last = some '\r' ∧ text.head? = some '\n' then offset - 1 else offset + size (lineRest text)) := by
  induction text with
  | nil =>
    intro offset last
    rw [if_neg (by rintro ⟨-, h⟩; cases h)]
    rfl
  | cons ch text ih =>
    intro offset last
    have hrest := @ih (offset + ch.utf8Size) (some ch)
    unfold scanLines
    dsimp only
    by_cases hbreak : ch = '\n'
    · subst hbreak
      simp [lineRest]
    · rw [if_neg hbreak, size_cons, ← Nat.add_assoc, hrest,
        if_neg (c := last = some '\r' ∧ (ch :: text).head? = some '\n')
          (by rintro ⟨-, h⟩; exact hbreak (by simpa using h))]
      by_cases hcrlf : ch = '\r' ∧ text.head? = some '\n'
      · obtain ⟨rfl, hhead⟩ := hcrlf
        obtain ⟨rest, rfl⟩ := head?_eq_some_iff.mp hhead
        rfl
      · have hline : lineRest (ch :: text) = ch :: lineRest text := by
          rw [lineRest]
          · exact hbreak
          · rintro rest rfl rfl
            exact hcrlf ⟨rfl, rfl⟩
        rw [hline, size_cons, ← Nat.add_assoc, if_neg]
        rintro ⟨heq, hhead⟩
        exact hcrlf ⟨some.inj heq, hhead⟩

namespace LineIndex

variable (left right : List Char)

theorem starts_new : (new (left ++ right)).starts = 0 :: (scanLines 0 none left).1 ++
    (scanLines (size left) left.getLast? right).1 := by
  unfold new
  rw [scanLines_append, Nat.zero_add, or_none]
  rfl

theorem ends_new : (new (left ++ right)).ends = (scanLines 0 none left).2 ++
    ((scanLines (size left) left.getLast? right).2 ++ [size left + size right]) := by
  unfold new
  rw [scanLines_append, Nat.zero_add, or_none, size_append, ← append_assoc]

theorem length_starts (text : List Char) : (new text).starts.length = breaks text + 1 :=
  congrArg (· + 1) (length_scanLines text 0 none).1

/-- The start of the line of an offset. -/
theorem starts_at : (new (left ++ right)).starts[breaks left]? = some (size left - size (column left)) := by
  obtain ⟨before, hleft, hbef, hnone⟩ := exists_column left
  have hcnt : breaks left = breaks before := by
    unfold breaks
    conv_lhs => rw [hleft]
    rw [count_append, count_eq_zero_of_not_mem hnone, Nat.add_zero]
  have hsize : size left - size (column left) = size before := by
    conv_lhs => rw [hleft]
    rw [size_append, ← hleft, Nat.add_sub_cancel]
  rw [hcnt, hsize, hleft, append_assoc, starts_new]
  rw [getElem?_append_left (by rw [length_cons, (length_scanLines before 0 none).1]; omega)]
  rcases hbef with rfl | hlast
  · rfl
  · obtain ⟨before, rfl⟩ := getLast?_eq_some_iff.mp hlast
    have hlen : breaks (before ++ ['\n']) = (scanLines 0 none before).1.length + 1 := by
      rw [(length_scanLines before 0 none).1]
      exact count_append ..
    have hscan : (scanLines 0 none (before ++ ['\n'])).1 =
        (scanLines 0 none before).1 ++ [size (before ++ ['\n'])] := by
      rw [scanLines_append, size_append, Nat.zero_add]
      rfl
    rw [hlen, hscan, getElem?_cons_succ, getElem?_concat_length]

/-- The end of the line of an offset. -/
theorem ends_at : (new (left ++ right)).ends[breaks left]? =
    some (if InsideBreak left right then size left - 1 else size left + size (lineRest right)) := by
  have hlen := (length_scanLines left 0 none).2
  rw [ends_new, getElem?_append_right (by rw [hlen]), hlen, Nat.sub_self, head_scanLines]
  rfl

/-- The lines that start at or before an offset. -/
theorem takeWhile_starts : ((new (left ++ right)).starts.takeWhile fun start => start ≤ size left).length =
    breaks left + 1 := by
  have hlen := (length_scanLines left 0 none).1
  have hrest : ((scanLines (size left) left.getLast? right).1.takeWhile fun start => start ≤ size left) = [] := by
    cases hscan : (scanLines (size left) left.getLast? right).1 with
    | nil => rfl
    | cons start starts =>
      have hmem : start ∈ (scanLines (size left) left.getLast? right).1 := hscan ▸ mem_cons_self
      have := scanLines_range right hmem
      rw [takeWhile_cons_of_neg (by simpa using this.1)]
  rw [starts_new, takeWhile_append_of_pos, hrest, append_nil, length_cons, hlen]
  intro start hmem
  rcases mem_cons.mp hmem with rfl | hmem
  · exact decide_eq_true (Nat.zero_le _)
  · have := scanLines_range left hmem
    exact decide_eq_true (by omega)

/-- The position of an offset: none between the CR and the LF of a line break. -/
theorem position_new (encoding : PositionEncoding) :
    (new (left ++ right)).position (left ++ right) (size left) encoding =
      if InsideBreak left right then none else some ⟨breaks left, units encoding (column left)⟩ := by
  have hbdry : isCharBoundary (left ++ right) (size left) = true := by
    unfold isCharBoundary
    rw [dropBytes_size]
    rfl
  obtain ⟨before, hleft, -⟩ := exists_column left
  have hsize : size left = size before + size (column left) := by
    conv_lhs => rw [hleft]
    rw [size_append]
  have hslc : slice (left ++ right) (size left - size (column left)) (size left) = some (column left) := by
    have hpart := slice_part before (column left) right
    rwa [← append_assoc, ← hleft, ← hsize, ← Nat.sub_eq_of_eq_add hsize] at hpart
  unfold position
  simp only [hbdry, takeWhile_starts, Bool.not_true, Bool.false_eq_true, ↓reduceIte, Nat.add_one_ne_zero,
    Nat.add_sub_cancel, ends_at, starts_at, bind_eq_bind, bind_some, hslc]
  by_cases hinsd : InsideBreak left right
  · have hpos : 0 < size left := by
      refine size_pos ?_
      rintro rfl
      cases hinsd.1
    rw [if_pos hinsd, if_pos hinsd, if_pos (Nat.sub_one_lt (Nat.ne_of_gt hpos))]
  · simp [hinsd]

/-- A line of the text starts behind as many line breaks. -/
theorem exists_line {text : List Char} {line : Nat} (h : line ≤ breaks text) : ∃ before rest,
    text = before ++ rest ∧ breaks before = line ∧ (before = [] ∨ before.getLast? = some '\n') := by
  induction text using List.reverseRecOn generalizing line with
  | nil => exact ⟨[], [], rfl, (Nat.le_zero.mp h).symm, .inl rfl⟩
  | append_singleton text ch ih =>
    by_cases hle : line ≤ breaks text
    · obtain ⟨before, rest, rfl, hbef⟩ := ih hle
      exact ⟨before, rest ++ [ch], append_assoc .., hbef⟩
    · have hcnt : breaks (text ++ [ch]) = breaks text + breaks [ch] := count_append
      have hone : breaks [ch] ≤ 1 := count_le_length
      refine ⟨text ++ [ch], [], (append_nil _).symm, by omega, .inr ?_⟩
      have hbreak : '\n' ∈ [ch] := count_pos_iff.mp (show 0 < breaks [ch] by omega)
      rw [getLast?_concat, mem_singleton.mp hbreak]

end LineIndex

theorem units_append (encoding : PositionEncoding) (left right : List Char) :
    units encoding (left ++ right) = units encoding left + units encoding right := by
  cases encoding with
  | utf8 => exact size_append left right
  | utf16 =>
    show ((left ++ right).map lenUtf16).sum = _
    rw [map_append, sum_append]
    rfl

variable {text : List Char}

theorem units_pos (encoding : PositionEncoding) (h : text ≠ []) : 0 < units encoding text := by
  cases encoding with
  | utf8 => exact size_pos h
  | utf16 =>
    obtain ⟨ch, rest, rfl⟩ := exists_cons_of_ne_nil h
    have : 0 < lenUtf16 ch := by
      unfold lenUtf16
      split <;> omega
    show 0 < ((ch :: rest).map lenUtf16).sum
    rw [map_cons, sum_cons]
    omega

/-- The loop finds the part of the line with the units that are left. -/
theorem offsetUtf16_iff {character start : Nat} (line : List Char) : ∀ {offset passed found : Nat},
    passed ≤ character → (offsetUtf16 character start offset passed line = some found ↔
      ∃ left right, line = left ++ right ∧ character = passed + units .utf16 left ∧
        found = start + offset + size left) := by
  induction line with
  | nil =>
    intro offset passed found _
    have hchar : units .utf16 [] = 0 := rfl
    unfold offsetUtf16
    constructor
    · intro h
      split at h
      · rename_i heq
        exact ⟨[], [], rfl, heq.symm, (some.inj h).symm⟩
      · cases h
    · rintro ⟨left, right, hline, hunits, rfl⟩
      obtain ⟨rfl, rfl⟩ := append_eq_nil_iff.mp hline.symm
      exact if_pos hunits.symm
  | cons ch line ih =>
    intro offset passed found hle
    have hcons (text : List Char) : units .utf16 (ch :: text) = lenUtf16 ch + units .utf16 text :=
      units_append .utf16 [ch] text
    unfold offsetUtf16
    by_cases heq : passed = character
    · rw [if_pos heq]
      constructor
      · intro h
        exact ⟨[], _, rfl, heq.symm, (some.inj h).symm⟩
      · rintro ⟨left, right, hline, hunits, rfl⟩
        cases left with
        | nil => rfl
        | cons next left =>
          have := units_pos .utf16 (cons_ne_nil next left)
          omega
    · rw [if_neg heq]
      have hfst {left right : List Char} (hline : ch :: line = left ++ right)
          (hunits : character = passed + units .utf16 left) :
          ∃ left', left = ch :: left' ∧ line = left' ++ right := by
        cases left with
        | nil => exact absurd hunits.symm heq
        | cons next left =>
          cases hline
          exact ⟨left, rfl, rfl⟩
      by_cases hpast : passed + lenUtf16 ch > character
      · rw [if_pos hpast]
        refine ⟨nofun, ?_⟩
        rintro ⟨left, right, hline, hunits, -⟩
        obtain ⟨left, rfl, -⟩ := hfst hline hunits
        rw [hcons] at hunits
        omega
      · rw [if_neg hpast, ih (by omega)]
        constructor
        · rintro ⟨left, right, rfl, hunits, rfl⟩
          exact ⟨ch :: left, right, rfl, by rw [hcons]; omega, by rw [size_cons]; omega⟩
        · rintro ⟨left, right, hline, hunits, rfl⟩
          obtain ⟨left, rfl, rfl⟩ := hfst hline hunits
          rw [hcons] at hunits
          exact ⟨left, right, rfl, by omega, by rw [size_cons]; omega⟩

theorem isCharBoundary_iff {offset : Nat} :
    isCharBoundary text offset = true ↔ ∃ left right, text = left ++ right ∧ offset = size left := by
  unfold isCharBoundary
  constructor
  · intro h
    obtain ⟨right, hrt⟩ := isSome_iff_exists.mp h
    obtain ⟨left, rfl, rfl⟩ := dropBytes_some hrt
    exact ⟨left, right, rfl, rfl⟩
  · rintro ⟨left, right, rfl, rfl⟩
    rw [dropBytes_size]
    rfl

namespace LineIndex

/-- The offset of a position: that of the part of its line with as many units. -/
theorem offset_new (before rest : List Char) (hbef : before = [] ∨ before.getLast? = some '\n')
    (character found : Nat) (encoding : PositionEncoding) :
    (new (before ++ rest)).offset (before ++ rest) ⟨breaks before, character⟩ encoding = some found ↔
      ∃ middle right, lineRest rest = middle ++ right ∧ character = units encoding middle ∧
        found = size before + size middle := by
  have hinsd : ¬InsideBreak before rest := by
    rintro ⟨hcr, -⟩
    rcases hbef with rfl | hlast
    · cases hcr
    · rw [hlast] at hcr
      exact absurd hcr (by decide)
  have hst := starts_at before rest
  have hend := ends_at before rest
  rw [if_neg hinsd] at hend
  rw [column_of_break hbef, size_nil, Nat.sub_zero] at hst
  obtain ⟨after, hrest, -⟩ := lineRest_append rest
  have hslc : slice (before ++ rest) (size before) (size before + size (lineRest rest)) = some (lineRest rest) := by
    have hpart := slice_part before (lineRest rest) after
    rwa [← hrest] at hpart
  unfold offset
  simp only [hst, hend, bind_eq_bind, bind_some, hslc]
  cases encoding with
  | utf8 =>
    dsimp only
    rw [ite_none_right_eq_some, isCharBoundary_iff]
    constructor
    · rintro ⟨⟨-, middle, right, hline, rfl⟩, hfnd⟩
      exact ⟨middle, right, hline, rfl, (some.inj hfnd).symm⟩
    · rintro ⟨middle, right, hline, rfl, rfl⟩
      refine ⟨⟨?_, middle, right, hline, rfl⟩, rfl⟩
      rw [hline, size_append]
      exact Nat.le_add_right ..
  | utf16 =>
    dsimp only
    rw [offsetUtf16_iff _ (Nat.zero_le _)]
    simp only [Nat.zero_add, Nat.add_zero]

end LineIndex

/-! ## Offsets and positions -/

/-- The offset stands after `left`, at the position, and not inside a line break. -/
def Located (text : List Char) (encoding : PositionEncoding) (offset : Nat) (position : Position) : Prop :=
  ∃ left right, text = left ++ right ∧ offset = size left ∧ ¬InsideBreak left right ∧
    position = ⟨breaks left, units encoding (column left)⟩

def Position.Before (position other : Position) : Prop :=
  position.line < other.line ∨ position.line = other.line ∧ position.character < other.character

variable {encoding : PositionEncoding}

theorem LineIndex.position_iff {offset : Nat} {position : Position} :
    (new text).position text offset encoding = some position ↔ Located text encoding offset position := by
  constructor
  · intro h
    have hbdry : isCharBoundary text offset = true := by
      by_contra hnot
      unfold LineIndex.position at h
      rw [Bool.not_eq_true _ |>.mp hnot] at h
      cases h
    obtain ⟨left, right, rfl, rfl⟩ := isCharBoundary_iff.mp hbdry
    rw [position_new] at h
    obtain ⟨hinsd, heq⟩ := ite_none_left_eq_some.mp h
    exact ⟨left, right, rfl, rfl, hinsd, (some.inj heq).symm⟩
  · rintro ⟨left, right, rfl, rfl, hinsd, rfl⟩
    rw [position_new, if_neg hinsd]

theorem LineIndex.offset_iff {offset : Nat} {position : Position} :
    (new text).offset text position encoding = some offset ↔ Located text encoding offset position := by
  constructor
  · intro h
    have hline : position.line ≤ breaks text := by
      by_contra hpast
      unfold LineIndex.offset at h
      rw [getElem?_eq_none (by rw [length_starts]; omega)] at h
      cases h
    obtain ⟨before, rest, rfl, hbreaks, hbef⟩ := exists_line hline
    obtain ⟨line, character⟩ := position
    obtain rfl : breaks before = line := hbreaks
    obtain ⟨middle, right, hmid, rfl, rfl⟩ := (offset_new before rest hbef _ _ _).mp h
    obtain ⟨after, hrest, hnone, haft⟩ := lineRest_append rest
    rw [hmid] at hnone hrest haft
    rw [mem_append, not_or] at hnone
    refine ⟨before ++ middle, right ++ after, ?_, (size_append ..).symm, ?_, ?_⟩
    · conv_lhs => rw [hrest]
      rw [append_assoc, append_assoc]
    · rintro ⟨hcr, hlf⟩
      rw [getLast?_append] at hcr
      cases right with
      | cons ch right =>
        obtain rfl : ch = '\n' := by simpa using hlf
        exact hnone.2 mem_cons_self
      | nil =>
        rw [append_nil] at haft
        rw [nil_append] at hlf
        rcases haft with rfl | ⟨-, hlast⟩ | ⟨tail, rfl⟩
        · cases hlf
        · rcases or_eq_some_iff.mp hcr with hmid | ⟨-, hlast'⟩
          · exact hlast hmid
          · rcases hbef with rfl | hbreak
            · cases hlast'
            · rw [hbreak] at hlast'
              exact absurd hlast' (by decide)
        · exact absurd hlf (by simp)
    · rw [column_append hnone.1, column_of_break hbef, nil_append]
      unfold breaks
      rw [count_append, count_eq_zero_of_not_mem hnone.1, Nat.add_zero]
  · rintro ⟨left, right, rfl, rfl, hinsd, rfl⟩
    obtain ⟨before, hleft, hbef, hnone⟩ := exists_column left
    generalize column left = middle at hleft hnone
    subst hleft
    have hcnt : breaks (before ++ middle) = breaks before := by
      unfold breaks
      rw [count_append, count_eq_zero_of_not_mem hnone, Nat.add_zero]
    rw [hcnt, append_assoc, offset_new before (middle ++ right) hbef]
    refine ⟨middle, lineRest right, lineRest_cons hnone (fun hin => hinsd ?_), rfl, size_append ..⟩
    refine ⟨?_, hin.2⟩
    rw [getLast?_append, hin.1]
    rfl

theorem Position.Before.asymm {position other : Position} (h : position.Before other) : ¬other.Before position := by
  unfold Before at *
  omega

/-- Later offsets have later positions. -/
theorem Located.before {offset offset' : Nat}
    {position position' : Position} (h : Located text encoding offset position)
    (h' : Located text encoding offset' position') (hlt : offset < offset') : position.Before position' := by
  obtain ⟨left, right, htext, rfl, -, rfl⟩ := h
  obtain ⟨left', right', htext', rfl, -, rfl⟩ := h'
  rcases append_eq_append_iff.mp (htext.symm.trans htext') with ⟨more, rfl, -⟩ | ⟨more, rfl, -⟩
  · have hmore : more ≠ [] := by
      rintro rfl
      rw [append_nil] at hlt
      exact Nat.lt_irrefl _ hlt
    have hcnt : breaks (left ++ more) = breaks left + breaks more := count_append
    by_cases hbreak : '\n' ∈ more
    · have : 0 < breaks more := count_pos_iff.mpr hbreak
      refine .inl ?_
      show breaks left < breaks (left ++ more)
      omega
    · have hzero : breaks more = 0 := count_eq_zero_of_not_mem hbreak
      have := units_pos encoding hmore
      refine .inr ⟨?_, ?_⟩
      · show breaks left = breaks (left ++ more)
        omega
      · show units encoding (column left) < units encoding (column (left ++ more))
        rw [column_append hbreak, units_append]
        omega
  · rw [size_append] at hlt
    omega

/-- Between the CR and the LF of a line break of the text. -/
def BetweenCrLf (text : List Char) (offset : Nat) : Prop :=
  ∃ left right, text = left ++ right ∧ offset = size left ∧ InsideBreak left right

/-- The two maps are inverse to each other and strictly monotone. An offset has a position when it stands
between characters, not between the CR and the LF of a line break. -/
theorem lineIndex_inverse (text : List Char) (encoding : PositionEncoding) :
    let index := LineIndex.new text
    (∀ offset position, index.position text offset encoding = some position ↔
      index.offset text position encoding = some offset) ∧
    (∀ offset, (∃ position, index.position text offset encoding = some position) ↔
      isCharBoundary text offset = true ∧ ¬BetweenCrLf text offset) ∧
    ∀ offset offset' position position', index.position text offset encoding = some position →
      index.position text offset' encoding = some position' → (offset < offset' ↔ position.Before position') := by
  refine ⟨fun offset position => ?_, fun offset => ?_, fun offset offset' position position' h h' => ?_⟩
  · rw [LineIndex.position_iff, LineIndex.offset_iff]
  · constructor
    · rintro ⟨position, h⟩
      obtain ⟨left, right, rfl, rfl, hinsd, -⟩ := LineIndex.position_iff.mp h
      refine ⟨isCharBoundary_iff.mpr ⟨left, right, rfl, rfl⟩, ?_⟩
      rintro ⟨left', right', htext, hsize, hinsd'⟩
      obtain ⟨rfl, rfl⟩ := append_inj_size htext hsize
      exact hinsd hinsd'
    · rintro ⟨hbdry, hbtw⟩
      obtain ⟨left, right, rfl, rfl⟩ := isCharBoundary_iff.mp hbdry
      have hinsd : ¬InsideBreak left right := fun hinsd => hbtw ⟨left, right, rfl, rfl, hinsd⟩
      exact ⟨_, LineIndex.position_iff.mpr ⟨left, right, rfl, rfl, hinsd, rfl⟩⟩
  · have hlocd := LineIndex.position_iff.mp h
    have hlocd' := LineIndex.position_iff.mp h'
    refine ⟨hlocd.before hlocd', fun hbef => ?_⟩
    rcases Nat.lt_trichotomy offset offset' with hlt | rfl | hgt
    · exact hlt
    · rw [h] at h'
      cases h'
      exact absurd hbef hbef.asymm
    · exact absurd (hlocd'.before hlocd hgt) hbef.asymm

/-- The offset between the CR and the LF of a text is a boundary without a position. -/
theorem lineIndex_between : ¬∀ (text : List Char) (offset : Nat) (encoding : PositionEncoding),
    isCharBoundary text offset = true → ∃ position,
      (LineIndex.new text).position text offset encoding = some position ∧
        (LineIndex.new text).offset text position encoding = some offset := by
  intro h
  obtain ⟨position, hposition, -⟩ := h ['\r', '\n'] 1 .utf8 (by decide)
  have hnone : (LineIndex.new ['\r', '\n']).position ['\r', '\n'] 1 .utf8 = none := by decide
  rw [hnone] at hposition
  cases hposition

end Kagari.Source
