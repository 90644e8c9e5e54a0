import Kagari.Syntax.Lexer

/-!
# Tokens that cover a text

What it is for tokens to cover a text piece by piece (`Covers`), and how a cursor moves over it
(`Moved`, `Within`). Each loop of the scanners moves the cursor, and ends where it says.
-/

namespace Kagari.Syntax

open Lib.Text List

/-! ## Covers -/

/-- The tokens spell the text from an offset on, each a piece that is not empty. -/
def Covers : Nat → List Char → List Token → Prop
  | _, text, [] => text = []
  | offset, text, token :: tokens =>
    ∃ piece rest, piece ≠ [] ∧ text = piece ++ rest ∧ token.start = offset ∧
      token.stop = offset + size piece ∧ Covers (offset + size piece) rest tokens

theorem Covers.append {left right : List Char} {tokens more : List Token} {offset : Nat}
    (h : Covers offset left tokens) (h' : Covers (offset + size left) right more) :
    Covers offset (left ++ right) (tokens ++ more) := by
  induction tokens generalizing offset left with
  | nil =>
    obtain rfl : left = [] := h
    exact h'
  | cons token tokens ih =>
    obtain ⟨piece, rest, hpce, rfl, hst, hstop, htoks⟩ := h
    refine ⟨piece, rest ++ right, hpce, append_assoc _ _ _, hst, hstop, ih htoks ?_⟩
    rwa [size_append, ← Nat.add_assoc] at h'

variable {kind : TokenKind}

theorem covers_one {text : List Char} {start stop : Nat} (h : text ≠ [])
    (hstop : stop = start + size text) : Covers start text [⟨kind, start, stop⟩] :=
  ⟨text, [], h, (append_nil _).symm, rfl, hstop, rfl⟩

/-! ## Cursors -/

/-- The cursor has moved over some characters. -/
structure Moved (cursor cursor' : Cursor) (consumed : List Char) : Prop where
  rest : cursor.rest = consumed ++ cursor'.rest
  offset : cursor'.offset = cursor.offset + size consumed

theorem Moved.refl (cursor : Cursor) : Moved cursor cursor [] := ⟨rfl, rfl⟩

theorem Moved.trans {cursor cursor' cursor'' : Cursor} {consumed more : List Char}
    (h : Moved cursor cursor' consumed) (h' : Moved cursor' cursor'' more) :
    Moved cursor cursor'' (consumed ++ more) := by
  constructor
  · rw [h.rest, h'.rest, append_assoc]
  · rw [h'.offset, h.offset, size_append, Nat.add_assoc]

theorem Moved.length {cursor cursor' : Cursor} {consumed : List Char} (h : Moved cursor cursor' consumed) :
    cursor.rest.length = consumed.length + cursor'.rest.length := by
  rw [h.rest, length_append]

theorem moved_one (offset : Nat) (ch : Char) (rest : List Char) :
    Moved ⟨offset, ch :: rest⟩ ⟨offset + ch.utf8Size, rest⟩ [ch] := ⟨rfl, by simp⟩

/-- The cursor is in the text. -/
def Within (input : List Char) (cursor : Cursor) : Prop :=
  ∃ before, input = before ++ cursor.rest ∧ cursor.offset = size before

variable {input consumed text rest : List Char} {cursor cursor' : Cursor} {offset index start stop : Nat}
  {ch : Char}

theorem Within.moved (h : Within input cursor) (hmov : Moved cursor cursor' consumed) :
    Within input cursor' := by
  obtain ⟨before, hinp, hoff⟩ := h
  refine ⟨before ++ consumed, ?_, ?_⟩
  · rw [hinp, hmov.rest, append_assoc]
  · rw [hmov.offset, hoff, size_append]

/-- The characters it has moved over are the slice. -/
theorem Within.slice (h : Within input cursor) (hmov : Moved cursor cursor' consumed) :
    slice input cursor.offset cursor'.offset = some consumed := by
  obtain ⟨before, hinp, hoff⟩ := h
  rw [hinp, hmov.rest, hmov.offset, hoff]
  exact slice_part before consumed cursor'.rest

theorem Within.position (h : Within input cursor) : cursor.position input = cursor.offset := by
  obtain ⟨before, hinp, hoff⟩ := h
  unfold Cursor.position
  cases hrest : cursor.rest with
  | nil =>
    rw [hrest, append_nil] at hinp
    rw [hinp, hoff]
    rfl
  | cons ch rest => rfl

/-- A scanner has consumed characters, and its tokens cover them. -/
def Scanned (offset : Nat) (text : List Char) (scan : Scan) : Prop :=
  ∃ consumed, consumed ≠ [] ∧ Moved ⟨offset, text⟩ scan.2 consumed ∧ Covers offset consumed scan.1

/-- One token over all that was consumed. -/
theorem scanned_one (hcsmd : consumed ≠ [])
    (hmov : Moved ⟨offset, text⟩ cursor consumed) (hstop : stop = cursor.offset) :
    Scanned offset text ([⟨kind, offset, stop⟩], cursor) :=
  ⟨consumed, hcsmd, hmov, covers_one hcsmd (hstop.trans hmov.offset)⟩

/-! ## Characters of one byte -/

theorem utf8Size_ascii (h : ch.toNat < 128) : ch.utf8Size = 1 := by
  unfold Char.utf8Size
  rw [if_pos]
  rw [UInt32.le_iff_toNat_le]
  exact Nat.le_of_lt_succ h

theorem toNat_between {low high : Char} (h : low ≤ ch ∧ ch ≤ high) (hhigh : high.toNat < 128) :
    ch.toNat < 128 := by
  have hle : ch.toNat ≤ high.toNat := h.2
  omega

theorem wordCharacter_size (h : wordCharacter ch = true) : ch.utf8Size = 1 := by
  apply utf8Size_ascii
  unfold wordCharacter isAsciiAlphanumeric isAsciiAlphabetic isAsciiLower isAsciiUpper isAsciiDigit at h
  simp only [Bool.or_eq_true, decide_eq_true_eq] at h
  rcases h with ((h | h) | h) | rfl
  · exact toNat_between h (by decide)
  · exact toNat_between h (by decide)
  · exact toNat_between h (by decide)
  · decide

theorem digitOrLine_size (h : digitOrLine ch = true) : ch.utf8Size = 1 := by
  apply wordCharacter_size
  unfold digitOrLine at h
  unfold wordCharacter isAsciiAlphanumeric
  simp only [Bool.or_eq_true] at h ⊢
  exact h.imp .inr id

/-! ## Loops -/

/-- The characters of a class that come next; `mark` is `gap` bytes short of the end of each. -/
theorem scanWhile_spec {p : Char → Bool} {mark : Nat → Char → Nat} {gap : Nat}
    (hmark : ∀ offset ch, p ch = true → mark offset ch + gap = offset + ch.utf8Size)
    (text : List Char) (stop offset : Nat) :
    ∃ consumed, Moved ⟨offset, text⟩ (scanWhile p mark stop offset text).2 consumed ∧
      (consumed = [] ∧ (scanWhile p mark stop offset text).1 = stop ∨
        consumed ≠ [] ∧ (scanWhile p mark stop offset text).1 + gap =
          (scanWhile p mark stop offset text).2.offset) ∧
      ∀ ch rest, (scanWhile p mark stop offset text).2.rest = ch :: rest → p ch = false := by
  induction text generalizing stop offset with
  | nil => exact ⟨[], Moved.refl _, .inl ⟨rfl, rfl⟩, fun ch rest hrest => nomatch hrest⟩
  | cons ch text ih =>
    rw [scanWhile]
    split
    · rename_i hp
      obtain ⟨consumed, hmov, hstop, hend⟩ := ih (mark offset ch) (offset + ch.utf8Size)
      refine ⟨ch :: consumed, (moved_one offset ch text).trans hmov, .inr ⟨cons_ne_nil _ _, ?_⟩, hend⟩
      rcases hstop with ⟨rfl, hstop⟩ | ⟨-, hstop⟩
      · rw [hstop, hmark offset ch hp, hmov.offset, size_nil, Nat.add_zero]
      · exact hstop
    · rename_i hp
      refine ⟨[], Moved.refl _, .inl ⟨rfl, rfl⟩, fun other rest hrest => ?_⟩
      obtain ⟨rfl, -⟩ := cons.inj hrest
      exact Bool.eq_false_iff.mpr hp

/-- A loop that remembers the end of each character. -/
theorem scanWhile_end {p : Char → Bool} {mark : Nat → Char → Nat}
    (hmark : ∀ offset ch, p ch = true → mark offset ch = offset + ch.utf8Size) (text : List Char)
    (offset : Nat) :
    ∃ consumed, Moved ⟨offset, text⟩ (scanWhile p mark offset offset text).2 consumed ∧
      (scanWhile p mark offset offset text).1 = (scanWhile p mark offset offset text).2.offset ∧
      (∀ ch rest, text = ch :: rest → p ch = true → consumed ≠ []) := by
  obtain ⟨consumed, hmov, hstop, hend⟩ :=
    @scanWhile_spec p mark 0 hmark text offset offset
  refine ⟨consumed, hmov, ?_, fun ch rest htext hp => ?_⟩
  · rcases hstop with ⟨rfl, hstop⟩ | ⟨-, hstop⟩
    · rw [hstop, hmov.offset]
      rfl
    · exact hstop
  · rintro rfl
    have hfalse := hend ch rest (hmov.rest.symm.trans htext)
    rw [hp] at hfalse
    cases hfalse

theorem advanceTo_spec (left right : List Char) (offset : Nat) :
    advanceTo (offset + size left) offset (left ++ right) = ⟨offset + size left, right⟩ := by
  induction left generalizing offset with
  | nil =>
    cases right with
    | nil => rfl
    | cons ch right =>
      rw [nil_append, advanceTo, if_neg (by simp)]
      rfl
  | cons ch left ih =>
    have := ch.utf8Size_pos
    rw [cons_append, advanceTo, size_cons, if_pos (by omega), ← Nat.add_assoc, ih]

end Kagari.Syntax
