import Kagari.Syntax.Spelling

/-!
# Accepted spellings are recognized

A scanner that begins at a spelling its decoder accepts ends behind it, with one token of that kind. The
loops go over the content of a string as the decoders cut it (`Passing.cooked`).
-/

namespace Kagari.Syntax

open Lib.Text List

/-! ## Content -/

variable {ch : Char} {digits rest : List Char}

section Loops

variable {α : Type} {loop : Nat → Cursor → α} {cursor cursor' cursor'' : Cursor}

/-- The loop goes on from one cursor to the other, within its bound. -/
def Follows (loop : Nat → Cursor → α) (cursor cursor' : Cursor) : Prop :=
  ∀ bound, cursor.rest.length ≤ bound → ∃ bound', cursor'.rest.length ≤ bound' ∧ loop bound cursor = loop bound' cursor'

theorem Follows.refl (cursor : Cursor) : Follows loop cursor cursor := fun bound hbnd => ⟨bound, hbnd, rfl⟩

theorem Follows.trans (h : Follows loop cursor cursor') (h' : Follows loop cursor' cursor'') :
    Follows loop cursor cursor'' := by
  intro bound hbnd
  obtain ⟨middle, hmid, heq⟩ := h bound hbnd
  obtain ⟨bound', hbnd', heq'⟩ := h' middle hmid
  exact ⟨bound', hbnd', heq.trans heq'⟩

/-- One iteration. -/
theorem follows_one {offset : Nat}
    (h : ∀ bound, loop (bound + 1) ⟨offset,
      ch :: rest⟩ = loop bound cursor') (hlen : cursor'.rest.length ≤ rest.length) :
    Follows loop ⟨offset, ch :: rest⟩ cursor' := by
  intro bound hbnd
  change rest.length + 1 ≤ bound at hbnd
  obtain ⟨bound, rfl⟩ : ∃ n, bound = n + 1 := ⟨bound - 1, by omega⟩
  exact ⟨bound, by omega, h bound⟩

/-- A loop over the content of a cooked string. -/
structure Passing (loop : Nat → Cursor → α) (byte : Bool) : Prop where
  direct : ∀ {ch : Char}, Direct byte ch → ∀ offset rest,
    Follows loop ⟨offset, ch :: rest⟩ ⟨offset + ch.utf8Size, rest⟩
  braces : ∀ {ch : Char}, ch = '{' ∨ ch = '}' → ∀ offset rest,
    Follows loop ⟨offset, ch :: ch :: rest⟩ ⟨offset + 2, rest⟩
  escape : ∀ offset rest, Follows loop ⟨offset, '\\' :: rest⟩ (skipEscape ⟨offset + 1, rest⟩)

theorem skipEscape_simple (h : ch ≠ 'u') (offset : Nat) (rest : List Char) :
    skipEscape ⟨offset, ch :: rest⟩ = ⟨offset + ch.utf8Size, rest⟩ := by
  unfold skipEscape
  split
  · rename_i heq
    cases heq
  · rename_i heq
    cases heq
    exact absurd rfl h
  · rename_i heq
    cases heq
    rfl

theorem skipBraced_digits (h : ∀ ch ∈ digits, wordCharacter ch = true) (rest : List Char) :
    ∀ offset, skipBraced offset (digits ++ '}' :: rest) = ⟨offset + size digits + 1, rest⟩ := by
  induction digits with
  | nil => exact fun _ => rfl
  | cons ch digits ih =>
    intro offset
    obtain ⟨hch, hdigs⟩ := forall_mem_cons.mp h
    rw [cons_append, skipBraced, if_neg (ne_of_word hch rfl), if_neg (ne_of_word hch rfl), ih hdigs, size_cons]
    congr 1
    omega

variable {byte : Bool} {content : List Char}

theorem Passing.text (h : Passing loop byte) (htext : ∀ ch ∈ content, Direct byte ch) (after : List Char) :
    ∀ offset, Follows loop ⟨offset, content ++ after⟩ ⟨offset + size content, after⟩ := by
  induction content with
  | nil => exact fun offset => .refl _
  | cons ch content ih =>
    intro offset
    obtain ⟨hch, htext⟩ := forall_mem_cons.mp htext
    have hrest := ih htext (offset + ch.utf8Size)
    rw [Nat.add_assoc, ← size_cons] at hrest
    exact (h.direct hch offset _).trans hrest

theorem Passing.cooked (h : Passing loop byte) (hcont : Cooked byte content) (after : List Char) :
    ∀ offset, Follows loop ⟨offset, content ++ after⟩ ⟨offset + size content, after⟩ := by
  induction hcont with
  | nil => exact fun offset => .refl _
  | direct hch _ ih =>
    rename_i ch rest _
    intro offset
    have hrest := ih (offset + ch.utf8Size)
    rw [Nat.add_assoc, ← size_cons] at hrest
    exact (h.direct hch offset _).trans hrest
  | braces hch _ ih =>
    rename_i ch rest _
    intro offset
    have hsize : offset + size (ch :: ch :: rest) = offset + 2 + size rest := by
      rcases hch with rfl | rfl <;> (simp [Char.utf8Size]; omega)
    rw [hsize]
    exact (h.braces hch offset _).trans (ih (offset + 2))
  | continued hch _ ih =>
    rename_i ch rest _
    intro offset
    have hstep := h.escape offset (ch :: (rest ++ after))
    have hne : ch ≠ 'u' := by
      rcases hch with rfl | rfl <;> decide
    rw [skipEscape_simple hne] at hstep
    have hsize : offset + size ('\\' :: ch :: rest) = offset + 1 + ch.utf8Size + size rest := by
      simp [Char.utf8Size]
      omega
    rw [hsize]
    exact hstep.trans (ih _)
  | escape hesc _ ih =>
    rename_i escape rest _
    intro offset
    have hsize : offset + size ('\\' :: (escape ++ rest)) = offset + 1 + size escape + size rest := by
      simp [Char.utf8Size]
      omega
    have hstep := h.escape offset (escape ++ (rest ++ after))
    rw [hsize, cons_append, append_assoc]
    refine hstep.trans (.trans ?_ (ih _))
    cases hesc with
    | simple hch _ _ hdigs =>
      rename_i ch digits
      rw [cons_append, skipEscape_simple hch, size_cons, ← Nat.add_assoc]
      exact h.text (fun digit hdig => direct_of_word (hdigs digit hdig)) _ _
    | unicode hdigs =>
      rename_i digits
      have hskip : skipEscape ⟨offset + 1, 'u' :: '{' :: (digits ++ ['}']) ++ (rest ++ after)⟩ =
          ⟨offset + 1 + size ('u' :: '{' :: (digits ++ ['}'])), rest ++ after⟩ := by
        show skipBraced (offset + 1 + 2) (digits ++ ['}'] ++ (rest ++ after)) = _
        rw [append_assoc, singleton_append, skipBraced_digits hdigs]
        congr 1
        simp [Char.utf8Size]
        omega
      rw [hskip]
      exact .refl _

end Loops

/-! ## The loops of the scanners -/

section Scanners

variable {input after content : List Char} {start : Nat} {delimiter : StringDelimiter} {byte : Bool}

theorem skipEscape_length (cursor : Cursor) : (skipEscape cursor).rest.length ≤ cursor.rest.length := by
  obtain ⟨consumed, hmov⟩ := skipEscape_moved cursor
  have := hmov.length
  omega

theorem scanFormat_passing (input : List Char) (start : Nat) :
    Passing (fun bound => scanFormat input bound start) false := by
  refine ⟨fun {ch} hch offset rest => ?_, fun {ch} hch offset rest => ?_, fun offset rest => ?_⟩
  · obtain ⟨hquo, hesc, hbraces⟩ := hch
    obtain ⟨hopen, hclose⟩ := hbraces rfl
    refine follows_one (fun bound => ?_) (Nat.le_refl _)
    rw [scanFormat, if_neg hquo, if_neg hesc, if_neg fun h => h.1.elim hopen hclose, if_neg hopen]
  · refine follows_one (fun bound => ?_) (Nat.le_succ _)
    have hquo : ch ≠ '"' := by
      rcases hch with rfl | rfl <;> decide
    have hesc : ch ≠ '\\' := by
      rcases hch with rfl | rfl <;> decide
    rw [scanFormat, if_neg hquo, if_neg hesc, if_pos ⟨hch, rfl⟩]
    rfl
  · exact follows_one (fun bound => rfl) (skipEscape_length _)

/-- Over a character that is no quote. -/
theorem scanPlain_other (hquo : ch ≠ '"') (hesc : ¬ (ch = '\\' ∧ delimiter = .cooked)) (offset : Nat)
    (rest : List Char) : Follows (scanPlain input start delimiter byte) ⟨offset,
      ch :: rest⟩ ⟨offset + ch.utf8Size, rest⟩ := by
  refine follows_one (fun bound => ?_) (Nat.le_refl _)
  rw [scanPlain, if_neg hesc, if_pos hquo]

theorem scanPlain_passing (input : List Char) (start : Nat) (byte byte' : Bool) :
    Passing (scanPlain input start .cooked byte) byte' := by
  refine ⟨fun {ch} hch offset rest => ?_, fun {ch} hch offset rest => ?_, fun offset rest => ?_⟩
  · exact scanPlain_other hch.1 (fun h => hch.2.1 h.1) offset rest
  · have hone : ∀ offset rest, Follows (scanPlain input start .cooked byte) ⟨offset, ch :: rest⟩ ⟨offset + 1,
      rest⟩ := by
      intro offset rest
      rcases hch with rfl | rfl
      · exact scanPlain_other (by decide) (fun h => by cases h.1) offset rest
      · exact scanPlain_other (by decide) (fun h => by cases h.1) offset rest
    exact (hone offset _).trans (hone (offset + 1) rest)
  · exact follows_one (fun bound => rfl) (skipEscape_length _)

/-- No part of the closing delimiter belongs to a quote of the content. -/
theorem closingLen_content {content : List Char} (h : delimiter.closingLen ('"' :: content) = none)
    (after : List Char) :
    delimiter.closingLen ('"' :: (content ++ (delimiter.closer ++ after))) = none := by
  have hcont : content.take delimiter.hashes ≠ List.replicate delimiter.hashes '#' := by
    intro heq
    rw [show delimiter.closingLen ('"' :: content) = some (1 + delimiter.hashes) from if_pos heq] at h
    cases h
  refine if_neg fun heq => ?_
  by_cases hlen : delimiter.hashes ≤ content.length
  · rw [take_append_of_le_length hlen] at heq
    exact hcont heq
  · -- the quote of the delimiter would be a hash
    have hmem : '"' ∈ (content ++ (delimiter.closer ++ after)).take delimiter.hashes := by
      rw [take_append]
      refine mem_append_right _ ?_
      obtain ⟨n, hn⟩ : ∃ n, delimiter.hashes - content.length = n + 1 :=
        ⟨delimiter.hashes - content.length - 1, by omega⟩
      rw [hn]
      exact mem_cons_self
    rw [heq] at hmem
    exact absurd (eq_of_mem_replicate hmem) (by decide)

theorem scanPlain_raw {hashes : Nat} (h : closesInside (.raw hashes) content = false) (after : List Char) :
    ∀ offset, Follows (scanPlain input start (.raw hashes) byte)
      ⟨offset, content ++ ((StringDelimiter.raw hashes).closer ++ after)⟩
      ⟨offset + size content, (StringDelimiter.raw hashes).closer ++ after⟩ := by
  induction content with
  | nil => exact fun offset => .refl _
  | cons ch content ih =>
    intro offset
    unfold closesInside at h
    obtain ⟨hhere, hinsd⟩ := Bool.or_eq_false_iff.mp h
    have hrest := ih hinsd (offset + ch.utf8Size)
    rw [Nat.add_assoc, ← size_cons] at hrest
    refine .trans ?_ hrest
    rw [cons_append]
    by_cases hquo : ch = '"'
    · subst hquo
      have hnone := closingLen_content (Option.not_isSome_iff_eq_none.mp
        (by rw [hhere]; exact Bool.false_ne_true)) after
      refine follows_one (fun bound => ?_) (Nat.le_refl _)
      rw [scanPlain, if_neg (fun h => by cases h.1), if_neg (not_not.mpr rfl), hnone]
      rfl
    · exact scanPlain_other hquo (fun h => by cases h.2) offset _

/-- At the closing delimiter. -/
theorem scanPlain_closer {bound index : Nat} (hbnd : 0 < bound) :
    scanPlain input start delimiter byte bound ⟨index, delimiter.closer ++ after⟩ =
      (slice input start (index + size delimiter.closer)).map fun text =>
        ([⟨plainKind byte text, start, index + size delimiter.closer⟩], ⟨index + size delimiter.closer, after⟩) := by
  obtain ⟨bound, rfl⟩ : ∃ n, bound = n + 1 := ⟨bound - 1, by omega⟩
  have hclosing := delimiter.closingLen_closer after
  have hadvance := advanceTo_spec (List.replicate delimiter.hashes '#') after (index + 1)
  rw [size_replicate_hash, Nat.add_assoc] at hadvance
  rw [StringDelimiter.size_closer]
  show scanPlain input start delimiter byte (bound + 1) ⟨index,
    '"' :: (List.replicate delimiter.hashes '#' ++ after)⟩ = _
  rw [scanPlain, if_neg (fun h => by cases h.1), if_neg (not_not.mpr rfl),
    show delimiter.closingLen ('"' :: (List.replicate delimiter.hashes '#' ++ after)) = _ from hclosing]
  dsimp only
  rw [hadvance]

end Scanners

/-! ## Strings -/

section Strings

variable {input after content : List Char} {start : Nat} {delimiter : StringDelimiter} {byte : Bool}

/-- The `b` of a byte string. -/
def mark (byte : Bool) : List Char := if byte then ['b'] else []

theorem size_mark (byte : Bool) : size (mark byte) = if byte then 1 else 0 := by
  cases byte <;> rfl

/-- The scanner enters the content. -/
theorem scanDelimited_enter (hhashes : delimiter.hashes ≤ 255) (right : List Char) :
    scanDelimited input start byte (mark byte ++ (delimiter.opener ++ right)) =
      let opening := start + size (mark byte ++ delimiter.opener)
      if byte ∨ delimiter ≠ .cooked then
        scanPlain input start delimiter byte right.length ⟨opening, right⟩
      else
        (scanFormat input right.length opening ⟨opening, right⟩).map fun scan =>
          (formatTokens start opening scan, scan.cursor) := by
  have hopening := StringDelimiter.opening_iff.mpr ⟨right, rfl, rfl, hhashes⟩
  have hdrop : (mark byte ++ (delimiter.opener ++ right)).drop (if byte then 1 else 0) = delimiter.opener ++ right := by
    cases byte <;> rfl
  have hsize : size delimiter.opener + (if byte then 1 else 0) = size (mark byte ++ delimiter.opener) := by
    rw [size_append, size_mark, Nat.add_comm]
  have hadvance := advanceTo_spec (mark byte ++ delimiter.opener) right start
  rw [append_assoc] at hadvance
  unfold scanDelimited
  dsimp only
  rw [hdrop, hopening]
  dsimp only
  rw [hsize, hadvance]

/-- A raw or byte string, whose loop goes over its content. -/
theorem scanDelimited_plain (hhashes : delimiter.hashes ≤ 255) (hplain : byte ∨ delimiter ≠ .cooked)
    (hcont : ∀ offset, Follows (scanPlain input start delimiter byte) ⟨offset, content ++ (delimiter.closer ++ after)⟩
      ⟨offset + size content, delimiter.closer ++ after⟩)
    (h : Within input ⟨start, mark byte ++ (delimiter.opener ++ (content ++ delimiter.closer)) ++ after⟩) :
    scanDelimited input start byte (mark byte ++ (delimiter.opener ++ (content ++ delimiter.closer)) ++ after) =
      some (emit (plainKind byte (mark byte ++ (delimiter.opener ++ (content ++ delimiter.closer)))) start
        (size (mark byte ++ (delimiter.opener ++ (content ++ delimiter.closer)))) after) := by
  have hmov : Moved ⟨start, mark byte ++ (delimiter.opener ++ (content ++ delimiter.closer)) ++ after⟩
      ⟨start + size (mark byte ++ (delimiter.opener ++ (content ++ delimiter.closer))), after⟩
      (mark byte ++ (delimiter.opener ++ (content ++ delimiter.closer))) := ⟨rfl, rfl⟩
  have hslc := h.slice hmov
  have hstop : start + size (mark byte ++ delimiter.opener) + size content + size delimiter.closer =
      start + size (mark byte ++ (delimiter.opener ++ (content ++ delimiter.closer))) := by
    simp only [size_append]
    omega
  have hen := @scanDelimited_enter input start delimiter byte hhashes (content ++ (delimiter.closer ++ after))
  simp only [if_pos hplain] at hen
  obtain ⟨bound, hbnd, hloop⟩ := hcont (start + size (mark byte ++ delimiter.opener)) _ (Nat.le_refl _)
  have hpos : 0 < bound := Nat.lt_of_lt_of_le (Nat.succ_pos _) hbnd
  dsimp only at hslc
  simp only [append_assoc] at hen hslc ⊢
  rw [hen, hloop, scanPlain_closer hpos]
  rw [hstop, hslc]
  rfl

/-- The text of a cooked string, up to the quote. -/
theorem scanFormat_quote {bound index : Nat} (hbnd : 0 < bound) :
    scanFormat input bound start ⟨index, '"' :: after⟩ =
      (pushText input start index).map fun text =>
        ⟨text ++ [⟨.formatEnd, index, index + 1⟩], false, true, index + 1, ⟨index + 1, after⟩⟩ := by
  obtain ⟨bound, rfl⟩ : ∃ n, bound = n + 1 := ⟨bound - 1, by omega⟩
  rw [scanFormat, if_pos rfl]

/-- The token of accepted text, if there is any. -/
theorem pushText_accepted (h : Within input ⟨start, content ++ after⟩)
    (hcont : isOk (decodeStringFragment content) = true) :
    pushText input start (start + size content) =
      some (if content = [] then [] else [⟨.formatText, start, start + size content⟩]) := by
  unfold pushText
  by_cases hemp : content = []
  · simp [hemp]
  · have hpos := size_pos hemp
    have hmov : Moved ⟨start, content ++ after⟩ ⟨start + size content, after⟩ content := ⟨rfl, rfl⟩
    rw [if_neg (by omega), if_neg hemp, show slice input start (start + size content) = _ from h.slice hmov,
      Option.map_some, if_pos hcont]

/-- A cooked string without holes. -/
theorem scanDelimited_cooked (hcont : isOk (decodeStringFragment content) = true)
    (h : Within input ⟨start, '"' :: (content ++ '"' :: after)⟩) :
    scanDelimited input start false ('"' :: (content ++ '"' :: after)) =
      some (emit .string start (size ('"' :: (content ++ ['"']))) after) := by
  have hone : Within input ⟨start + 1, content ++ '"' :: after⟩ := h.moved (moved_one start '"' _)
  have hen := @scanDelimited_enter input start .cooked false (Nat.zero_le _) (content ++ '"' :: after)
  obtain ⟨bound, hbnd, hloop⟩ := (scanFormat_passing input (start + 1)).cooked (decodeStringFragment_cooked hcont)
    ('"' :: after) (start + 1) _ (Nat.le_refl _)
  have hpos : 0 < bound := Nat.lt_of_lt_of_le (Nat.succ_pos _) hbnd
  dsimp only at hloop
  rw [scanFormat_quote hpos, pushText_accepted hone hcont] at hloop
  have hstop : start + 1 + size content + 1 = start + size ('"' :: (content ++ ['"'])) := by
    rw [size_cons, size_append]
    show _ = start + (1 + (size content + 1))
    omega
  refine hen.trans ?_
  rw [if_neg (by simp)]
  refine (congrArg (Option.map _) hloop).trans ?_
  unfold formatTokens emit
  simp only [Option.map_some, Bool.false_eq_true, if_false, Bool.true_and]
  rw [hstop]
  by_cases hemp : content = []
  · simp [hemp]
  · simp [hemp]

end Strings

/-! ## Characters -/

section Characters

variable {input after content : List Char} {index : Nat} {byte : Bool}

/-- The loop goes over digits. -/
theorem scanQuoted_word (h : ∀ ch ∈ digits, wordCharacter ch = true) (rest : List Char) :
    ∀ offset, scanQuoted false offset offset (digits ++ rest) =
      scanQuoted false (offset + size digits) (offset + size digits) rest := by
  induction digits with
  | nil => exact fun _ => rfl
  | cons ch digits ih =>
    intro offset
    obtain ⟨hch, hdigs⟩ := forall_mem_cons.mp h
    have hline : ¬ (ch = '\r' ∨ ch = '\n') := fun h => h.elim (ne_of_word hch rfl) (ne_of_word hch rfl)
    rw [cons_append, scanQuoted, if_neg hline, if_neg Bool.false_ne_true, if_neg (ne_of_word hch rfl),
      if_neg (ne_of_word hch rfl), behind, ih hdigs, size_cons, Nat.add_assoc]

/-- The loop ends at the quote behind a character or an escape. -/
theorem scanQuoted_closes (h : Quoted content) (after : List Char) (offset : Nat) :
    scanQuoted false offset offset (content ++ '\'' :: after) =
      (true, offset + size content + 1, ⟨offset + size content + 1, after⟩) := by
  have hquo : ∀ offset, scanQuoted false offset offset ('\'' :: after) = (true, offset + 1, ⟨offset + 1, after⟩) :=
    fun _ => rfl
  cases h with
  | direct hesc hclose hreturn hline =>
    rename_i ch
    rw [singleton_append, scanQuoted, if_neg fun h => h.elim hreturn hline, if_neg Bool.false_ne_true,
      if_neg hesc, if_neg hclose, hquo]
    rfl
  | escape hesc =>
    rename_i escape
    have hbsl : ∀ ch rest, ch ≠ '\r' → ch ≠ '\n' → scanQuoted false offset offset ('\\' :: ch :: rest) =
        scanQuoted false (offset + 1 + ch.utf8Size) (offset + 1 + ch.utf8Size) rest := by
      intro ch rest hreturn hline
      rw [scanQuoted, if_neg (by decide), if_neg Bool.false_ne_true, if_pos rfl, scanQuoted,
        if_neg fun h => h.elim hreturn hline, if_pos rfl]
      rfl
    cases hesc with
    | simple hch hreturn hline hdigs =>
      rename_i ch digits
      rw [cons_append, cons_append, hbsl ch _ hreturn hline, scanQuoted_word hdigs, hquo]
      have hsize : offset + 1 + ch.utf8Size + size digits = offset + size ('\\' :: ch :: digits) := by
        rw [size_cons, size_cons]
        show _ = offset + (1 + _)
        omega
      rw [hsize]
    | unicode hdigs =>
      rename_i digits
      have hbrace : ∀ ch rest offset, ch = '{' ∨ ch = '}' → scanQuoted false offset offset (ch :: rest) =
          scanQuoted false (offset + 1) (offset + 1) rest := by
        rintro ch rest offset (rfl | rfl) <;> rfl
      rw [cons_append, cons_append, hbsl 'u' _ (by decide) (by decide), cons_append,
        hbrace '{' _ _ (.inl rfl), append_assoc, scanQuoted_word hdigs, singleton_append,
        hbrace '}' _ _ (.inr rfl), hquo]
      have hsize : offset + 1 + 'u'.utf8Size + 1 + size digits + 1 =
          offset + size ('\\' :: 'u' :: '{' :: (digits ++ ['}'])) := by
        simp only [size_cons, size_append, size_nil]
        show offset + 1 + 1 + 1 + size digits + 1 = offset + (1 + (1 + (1 + (size digits + 1))))
        omega
      rw [hsize]

theorem scanCharacter_accepted (hcont : Quoted content)
    (h : Within input ⟨index, mark byte ++ '\'' :: (content ++ ['\'']) ++ after⟩) :
    scanCharacter input index byte (content ++ '\'' :: after) =
      some (emit (quotedKind true byte (mark byte ++ '\'' :: (content ++ ['\'']))) index
        (size (mark byte ++ '\'' :: (content ++ ['\'']))) after) := by
  have hmov : Moved ⟨index, mark byte ++ '\'' :: (content ++ ['\'']) ++ after⟩
      ⟨index + size (mark byte ++ '\'' :: (content ++ ['\''])), after⟩ (mark byte ++ '\'' :: (content ++ ['\''])) :=
    ⟨rfl, rfl⟩
  have hslc := h.slice hmov
  have hstop : (if byte then index + 2 else index + 1) + size content + 1 =
      index + size (mark byte ++ '\'' :: (content ++ ['\''])) := by
    rw [size_append, size_mark, size_cons, size_append]
    show _ = index + (_ + (1 + (size content + 1)))
    cases byte
    · rw [if_neg Bool.false_ne_true, if_neg Bool.false_ne_true]
      omega
    · rw [if_pos rfl, if_pos rfl]
      omega
  unfold scanCharacter
  dsimp only at hslc ⊢
  rw [scanQuoted_closes hcont]
  dsimp only
  rw [hstop, hslc]
  rfl

end Characters

/-! ## Numbers -/

section Numbers

variable {input after spelling : List Char} {index : Nat}

/-- What follows does not continue the number: it is no word character, nor the fraction of one that has no
base and no suffix. -/
def NumberEnds (spelling after : List Char) : Prop :=
  (∀ ch rest, after = ch :: rest → wordCharacter ch = false) ∧
    ((∀ ch ∈ spelling, digitOrLine ch = true) → ∀ digit rest, after = '.' :: digit :: rest → isAsciiDigit digit = false)

/-- A loop that ends behind a word of its class. -/
theorem scanWhile_word {p : Char → Bool} {mark : Nat → Char → Nat}
    (hmark : ∀ offset ch, p ch = true → mark offset ch = offset + ch.utf8Size) {word : List Char}
    (hword : ∀ ch ∈ word, p ch = true) (haft : ∀ ch rest, after = ch :: rest → p ch = false) :
    ∀ offset, scanWhile p mark offset offset (word ++ after) = (offset + size word, ⟨offset + size word, after⟩) := by
  induction word with
  | nil =>
    intro offset
    cases after with
    | nil => rfl
    | cons ch rest =>
      rw [nil_append, scanWhile, if_neg (by rw [haft ch rest rfl]; exact Bool.false_ne_true)]
      rfl
  | cons ch word ih =>
    intro offset
    obtain ⟨hch, hword⟩ := forall_mem_cons.mp hword
    rw [cons_append, scanWhile, if_pos hch, hmark offset ch hch, ih hword, size_cons, Nat.add_assoc]

theorem scanBased_accepted {more : List Char} {base : Char} (hbase : base = 'b' ∨ base = 'o' ∨ base = 'x')
    (hint : isIntegerLiteral ('0' :: base :: more) = true) (hend : NumberEnds ('0' :: base :: more) after)
    (h : Within input ⟨index, '0' :: base :: more ++ after⟩) :
    scanBased input index (more ++ after) = some (emit .number index (size ('0' :: base :: more)) after) := by
  obtain ⟨_, _, -, hword, -⟩ := isIntegerLiteral_spec hint
  have hmore : ∀ ch ∈ more, wordCharacter ch = true := fun ch hch =>
    hword ch (mem_cons_of_mem _ (mem_cons_of_mem _ hch))
  have hscan := @scanWhile_word after wordCharacter (fun offset _ => offset + 1)
    (fun offset ch hp => by rw [wordCharacter_size hp]) more hmore hend.1 (index + 2)
  have hmov : Moved ⟨index, '0' :: base :: more ++ after⟩ ⟨index + size ('0' :: base :: more), after⟩
      ('0' :: base :: more) := ⟨rfl, rfl⟩
  have hslc := h.slice hmov
  have hsize : index + 2 + size more = index + size ('0' :: base :: more) := by
    have hbaseSize : base.utf8Size = 1 := by
      rcases hbase with rfl | rfl | rfl <;> rfl
    rw [size_cons, size_cons, hbaseSize]
    show _ = index + (1 + (1 + _))
    omega
  unfold scanBased
  dsimp only at hslc ⊢
  rw [hscan]
  dsimp only
  rw [hsize, hslc, Option.map_some, if_pos hint]
  rfl

/-- A number without a base. -/
theorem scanDecimal_accepted (hdig : isAsciiDigit ch = true)
    (hint : isIntegerLiteral (ch :: rest) = true) (hdec : nonDecimal (ch :: rest) = false)
    (hend : NumberEnds (ch :: rest) after) (h : Within input ⟨index, ch :: rest ++ after⟩) :
    scanDecimal input index (rest ++ after) = some (emit .number index (size (ch :: rest)) after) := by
  obtain ⟨digits, suffix, hpts, hword, hdigs, hsuf, hflt⟩ := isIntegerLiteral_spec hint
  have hdecimals := hdigs hdec
  have hnotLetter : ∀ letter, letter = 'i' ∨ letter = 'u' → isAsciiDigit letter = false ∧
    digitOrLine letter = false := by
    rintro letter (rfl | rfl) <;> decide
  -- the first character is a digit, so it is not of the suffix
  obtain ⟨more, rfl⟩ : ∃ more, digits = ch :: more := by
    cases digits with
    | nil =>
      rw [nil_append] at hpts
      rw [← hpts] at hsuf
      rcases hsuf with hnil | hletter | hletter
      · cases hnil
      · rw [Option.some.inj hletter] at hdig
        cases hdig
      · rw [Option.some.inj hletter] at hdig
        cases hdig
    | cons first more => exact ⟨more, by rw [(cons.inj hpts).1]⟩
  obtain rfl : rest = more ++ suffix := (cons.inj hpts).2
  have hmore : ∀ ch ∈ more, digitOrLine ch = true := (forall_mem_cons.mp hdecimals).2
  have hsuffixWord : ∀ ch ∈ suffix, wordCharacter ch = true := fun ch hch =>
    hword ch (mem_cons_of_mem _ (mem_append_right _ hch))
  have hnext : ∀ ch rest, suffix ++ after = ch :: rest → (ch = 'i' ∨ ch = 'u') ∨ suffix = [] ∧
    wordCharacter ch = false := by
    intro ch rest hrest
    rcases hsuf with rfl | hletter | hletter
    · exact .inr ⟨rfl, hend.1 ch rest hrest⟩
    · obtain ⟨tail, rfl⟩ := head?_eq_some_iff.mp hletter
      exact .inl (.inl (cons.inj hrest).1.symm)
    · obtain ⟨tail, rfl⟩ := head?_eq_some_iff.mp hletter
      exact .inl (.inr (cons.inj hrest).1.symm)
  have hstop : ∀ ch rest, suffix ++ after = ch :: rest → digitOrLine ch = false := by
    intro ch rest hrest
    rcases hnext ch rest hrest with hletter | ⟨-, hnot⟩
    · exact (hnotLetter ch hletter).2
    · exact Bool.eq_false_iff.mpr fun hline => by rw [word_of_digitOrLine hline] at hnot; cases hnot
  have hscan := @scanWhile_word (suffix ++ after) digitOrLine (fun offset _ => offset + 1)
    (fun offset ch hp => by rw [digitOrLine_size hp]) more hmore hstop (index + 1)
  have hfrac : ∀ scan : NumberScan, scan.cursor.rest = suffix ++ after → scanFraction scan = scan := by
    intro scan hrest
    unfold scanFraction
    split
    · rename_i digit tail hdot
      rw [hrest] at hdot
      rcases hnext _ _ hdot with hletter | ⟨rfl, -⟩
      · rcases hletter with hletter | hletter <;> cases hletter
      · rw [append_nil] at hend
        rw [hend.2 hdecimals digit tail hdot, if_neg Bool.false_ne_true]
    · rfl
  have hexpn : ∀ scan : NumberScan, scan.cursor.rest = suffix ++ after → scanExponent scan = scan := by
    intro scan hrest
    unfold scanExponent
    split
    · rename_i letter tail hletter
      rw [hrest] at hletter
      refine if_neg ?_
      rintro (rfl | rfl) <;>
        (rcases hnext _ _ hletter with hletter | ⟨-, hnot⟩
         · rcases hletter with hletter | hletter <;> cases hletter
         · cases hnot)
    · rfl
  have htail := @scanWhile_word after wordCharacter behind (fun _ _ _ => rfl) suffix hsuffixWord hend.1
    (index + 1 + size more)
  have hmov : Moved ⟨index, ch :: (more ++ suffix) ++ after⟩ ⟨index + size (ch :: (more ++ suffix)), after⟩
      (ch :: (more ++ suffix)) := ⟨rfl, rfl⟩
  have hslc := h.slice hmov
  have hsize : index + 1 + size more + size suffix = index + size (ch :: (more ++ suffix)) := by
    rw [size_cons, size_append, wordCharacter_size (isAsciiDigit_word hdig)]
    omega
  have hkind : decimalKind .number (ch :: (more ++ suffix)) = .number := by
    unfold decimalKind
    have hnotFloat : ((numericLiteralParts (ch :: (more ++ suffix))).2.any fun stop =>
      stop.head? = some 'f') = false := by
      cases hpart : (numericLiteralParts (ch :: (more ++ suffix))).2 with
      | none => rfl
      | some stop => simpa using hflt stop hpart
    simp [hnotFloat, hint]
  unfold scanDecimal
  dsimp only at hslc ⊢
  rw [append_assoc, hscan]
  dsimp only
  rw [hfrac ⟨.number, index + 1 + size more, ⟨index + 1 + size more, suffix ++ after⟩⟩ rfl,
    hexpn ⟨.number, index + 1 + size more, ⟨index + 1 + size more, suffix ++ after⟩⟩ rfl]
  dsimp only
  rw [htail]
  dsimp only
  rw [hsize, hslc, Option.map_some, hkind]
  rfl

theorem scanNumber_accepted (hdig : isAsciiDigit ch = true)
    (hint : isIntegerLiteral (ch :: rest) = true) (hend : NumberEnds (ch :: rest) after)
    (h : Within input ⟨index, ch :: rest ++ after⟩) :
    scanNumber input index ch (rest ++ after) = some (emit .number index (size (ch :: rest)) after) := by
  have hplain : ∀ {ch base : Char} {more : List Char}, ¬ (ch = '0' ∧ (base = 'b' ∨ base = 'o' ∨ base = 'x')) →
      nonDecimal (ch :: base :: more) = false := by
    intro ch base more hnot
    simp only [nonDecimal, any_cons, List.isPrefixOf, any_nil, Bool.or_false, Bool.and_true]
    simp only [Bool.or_eq_false_iff, Bool.and_eq_false_iff, beq_eq_false_iff_ne]
    grind
  cases rest with
  | nil =>
    have hdec : nonDecimal [ch] = false := by
      simp [nonDecimal, List.isPrefixOf]
    have hnum : scanNumber input index ch after = scanDecimal input index after := by
      unfold scanNumber
      split
      · rename_i base more
        refine if_neg fun hbased => ?_
        have hnot := hend.1 base more rfl
        obtain ⟨-, rfl | rfl | rfl⟩ := hbased <;> cases hnot
      · rfl
    have hscan := scanDecimal_accepted hdig hint hdec hend h
    rw [nil_append] at hscan ⊢
    rw [hnum, hscan]
  | cons base more =>
    unfold scanNumber
    rw [cons_append]
    dsimp only
    split
    · rename_i hbased
      obtain ⟨rfl, hbase⟩ := hbased
      exact scanBased_accepted hbase hint hend h
    · rename_i hnot
      have hscan := scanDecimal_accepted hdig hint (hplain hnot) hend h
      rwa [cons_append] at hscan

end Numbers

end Kagari.Syntax
