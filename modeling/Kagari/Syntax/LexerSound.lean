import Kagari.Syntax.StringsSound

/-!
# The lexer tiles the source

Every branch of the loop consumes at least one character and covers what it consumes, so the loop
ends, and its tokens spell the source.
-/

namespace Kagari.Syntax

open Lib.Text List

variable {input text rest : List Char} {index offset : Nat} {ch : Char}

/-! ## Operators -/

theorem emit_scanned {consumed : List Char} {length : Nat} (kind : TokenKind) (hne : consumed ≠ [])
    (hsize : size consumed = length) :
    Scanned index (consumed ++ rest) (emit kind index length rest) := by
  subst hsize
  exact scanned_one hne ⟨rfl, rfl⟩ rfl

theorem oneOrTwo_scanned (long short : TokenKind) {second : Char} (hch : ch.utf8Size = 1)
    (hsnd : second.utf8Size = 1) :
    Scanned index (ch :: rest) (oneOrTwo second long short index rest) := by
  unfold oneOrTwo
  split
  · exact @emit_scanned [] index [ch] 1 short (cons_ne_nil _ _) (by simp [hch])
  · rename_i next rest
    split
    · rename_i heq
      subst heq
      exact @emit_scanned rest index [ch, next] 2 long (cons_ne_nil _ _) (by simp [hch, hsnd])
    · exact @emit_scanned (next :: rest) index [ch] 1 short (cons_ne_nil _ _) (by simp [hch])

theorem scanDot_scanned : Scanned index ('.' :: rest) (scanDot index rest) := by
  unfold scanDot
  split
  · exact @emit_scanned _ index ['.', '.', '='] 3 _ (cons_ne_nil _ _) rfl
  · exact @emit_scanned _ index ['.', '.'] 2 _ (cons_ne_nil _ _) rfl
  · exact @emit_scanned _ index ['.'] 1 _ (cons_ne_nil _ _) rfl

theorem scanEq_scanned : Scanned index ('=' :: rest) (scanEq index rest) := by
  unfold scanEq
  split
  · exact @emit_scanned _ index ['=', '=', '='] 3 _ (cons_ne_nil _ _) rfl
  · exact @emit_scanned _ index ['=', '='] 2 _ (cons_ne_nil _ _) rfl
  · exact @emit_scanned _ index ['=', '>'] 2 _ (cons_ne_nil _ _) rfl
  · exact @emit_scanned _ index ['='] 1 _ (cons_ne_nil _ _) rfl

theorem scanMinus_scanned : Scanned index ('-' :: rest) (scanMinus index rest) := by
  unfold scanMinus
  split
  · exact @emit_scanned _ index ['-', '>'] 2 _ (cons_ne_nil _ _) rfl
  · exact oneOrTwo_scanned _ _ rfl rfl

theorem scanBang_scanned : Scanned index ('!' :: rest) (scanBang index rest) := by
  unfold scanBang
  split
  · exact @emit_scanned _ index ['!', '=', '='] 3 _ (cons_ne_nil _ _) rfl
  · exact oneOrTwo_scanned _ _ rfl rfl

/-- The second character, if there is one, has one byte. -/
theorem bitwiseKind_size (hch : ch.utf8Size = 1) (rest : List Char) :
    size (rest.take (bitwiseKind ch rest).2) = (bitwiseKind ch rest).2 := by
  unfold bitwiseKind
  split
  · rfl
  · rename_i next rest hnot
    split
    · rename_i hsame
      rw [hsame.2]
      simp [hch]
    · rfl
  · rfl

theorem scanBitwise_scanned (h : Within input ⟨index, ch :: rest⟩) (hch : ch.utf8Size = 1) :
    Scanned index (ch :: rest) (scanBitwise input index ch rest) := by
  have hmore := bitwiseKind_size hch rest
  unfold scanBitwise
  dsimp only
  generalize (bitwiseKind ch rest).2 = more at hmore
  have hmov : Moved ⟨index, ch :: rest⟩ ⟨index + 1 + more, rest.drop more⟩ (ch :: rest.take more) := by
    refine ⟨?_, ?_⟩
    · show ch :: rest = ch :: (rest.take more ++ rest.drop more)
      rw [take_append_drop]
    · show index + 1 + more = index + size (ch :: rest.take more)
      rw [size_cons, hmore, hch, Nat.add_assoc]
  exact scanned_one (cons_ne_nil _ _) hmov (h.moved hmov).position

/-! ## Comments -/

/-- The loop ends where the cursor stops. -/
theorem scanBlock_moved (text : List Char) (depth stop offset : Nat) (h : stop = offset) :
    ∃ consumed, Moved ⟨offset, text⟩ (scanBlock depth stop offset text).2.2 consumed ∧
      (scanBlock depth stop offset text).2.1 = (scanBlock depth stop offset text).2.2.offset := by
  fun_induction scanBlock depth stop offset text with
  | case1 depth stop offset => exact ⟨[], .refl _, h⟩
  | case2 depth stop offset rest ih =>
    obtain ⟨consumed, hmov, hstop⟩ := ih rfl
    have htwo : Moved ⟨offset, '/' :: '*' :: rest⟩ ⟨offset + 2, rest⟩ ['/', '*'] := ⟨rfl, rfl⟩
    exact ⟨_, htwo.trans hmov, hstop⟩
  | case3 stop offset rest =>
    exact ⟨['*', '/'], ⟨rfl, rfl⟩, rfl⟩
  | case4 depth stop offset rest hdep ih =>
    obtain ⟨consumed, hmov, hstop⟩ := ih rfl
    have htwo : Moved ⟨offset, '*' :: '/' :: rest⟩ ⟨offset + 2, rest⟩ ['*', '/'] := ⟨rfl, rfl⟩
    exact ⟨_, htwo.trans hmov, hstop⟩
  | case5 depth stop offset ch rest hopen hclose ih =>
    obtain ⟨consumed, hmov, hstop⟩ := ih rfl
    exact ⟨_, (moved_one offset ch rest).trans hmov, hstop⟩

theorem scanSlash_scanned : Scanned index ('/' :: rest) (scanSlash index rest) := by
  have hone := moved_one index '/' rest
  unfold scanSlash
  split
  · rename_i rest
    obtain ⟨consumed, hmov, hstop, -⟩ :=
      @scanWhile_end (fun ch => !(ch = '\r' || ch = '\n')) behind (fun _ _ _ => rfl) ('/' :: rest) (index + 1)
    exact scanned_one (by simp) (hone.trans hmov) hstop
  · rename_i rest
    obtain ⟨consumed, hmov, hstop⟩ := scanBlock_moved rest 1 (index + 2) (index + 2) rfl
    have htwo : Moved ⟨index, '/' :: '*' :: rest⟩ ⟨index + 2, rest⟩ ['/', '*'] := ⟨rfl, rfl⟩
    exact scanned_one (by simp) (htwo.trans hmov) hstop
  · exact oneOrTwo_scanned _ _ rfl rfl

/-! ## Characters and numbers -/

theorem scanQuoted_moved (text : List Char) (escaped : Bool) (stop offset : Nat) (h : stop = offset) :
    ∃ consumed, Moved ⟨offset, text⟩ (scanQuoted escaped stop offset text).2.2 consumed ∧
      (scanQuoted escaped stop offset text).2.1 = (scanQuoted escaped stop offset text).2.2.offset := by
  fun_induction scanQuoted escaped stop offset text with
  | case1 escaped stop offset => exact ⟨[], .refl _, h⟩
  | case2 escaped stop offset ch rest hline => exact ⟨[], .refl _, h⟩
  | case3 stop offset ch rest hline ih =>
    obtain ⟨consumed, hmov, hstop⟩ := ih rfl
    exact ⟨_, (moved_one offset ch rest).trans hmov, hstop⟩
  | case4 escaped stop offset rest hplain hline ih =>
    obtain ⟨consumed, hmov, hstop⟩ := ih rfl
    exact ⟨_, (moved_one offset '\\' rest).trans hmov, hstop⟩
  | case5 escaped stop offset rest => exact ⟨['\''], moved_one offset '\'' rest, rfl⟩
  | case6 escaped stop offset ch rest hline hplain hesc hquo ih =>
    obtain ⟨consumed, hmov, hstop⟩ := ih rfl
    exact ⟨_, (moved_one offset ch rest).trans hmov, hstop⟩

/-- One token, whose kind depends on its spelling. -/
theorem spelled_one {consumed : List Char} {cursor : Cursor} {stop : Nat}
    (h : Within input ⟨index, text⟩) (hne : consumed ≠ []) (hmov : Moved ⟨index, text⟩ cursor consumed)
    (hstop : stop = cursor.offset) (kind : List Char → TokenKind) :
    ∃ scan, ((slice input index stop).map fun text => ([⟨kind text, index, stop⟩], cursor)) = some scan ∧
      Scanned index text scan := by
  rw [hstop, show slice input index cursor.offset = some consumed from h.slice hmov]
  exact ⟨_, rfl, scanned_one hne hmov rfl⟩

theorem scanCharacter_scanned {byte : Bool} {opener : List Char}
    (h : Within input ⟨index, opener ++ rest⟩) (hopener : size opener = if byte then 2 else 1) :
    ∃ scan, scanCharacter input index byte rest = some scan ∧ Scanned index (opener ++ rest) scan := by
  unfold scanCharacter
  dsimp only
  have hst : (if byte then index + 2 else index + 1) = index + size opener := by
    rw [hopener]
    cases byte <;> rfl
  rw [hst]
  obtain ⟨consumed, hmov, hstop⟩ :=
    scanQuoted_moved rest false (index + size opener) (index + size opener) rfl
  have hopn : Moved ⟨index, opener ++ rest⟩ ⟨index + size opener, rest⟩ opener := ⟨rfl, rfl⟩
  have hne : opener ++ consumed ≠ [] := by
    rintro hnil
    obtain ⟨rfl, -⟩ := append_eq_nil_iff.mp hnil
    cases byte <;> cases hopener
  exact spelled_one h hne (hopn.trans hmov) hstop _

/-- A part of a number keeps its end at the cursor. -/
def NumberScan.Reached (index : Nat) (text : List Char) (scan : NumberScan) : Prop :=
  scan.stop = scan.cursor.offset ∧ ∃ consumed, consumed ≠ [] ∧ Moved ⟨index, text⟩ scan.cursor consumed

theorem digits_end (text : List Char) (offset : Nat) :
    ∃ consumed, Moved ⟨offset, text⟩
        (scanWhile digitOrLine (fun offset _ => offset + 1) offset offset text).2 consumed ∧
      (scanWhile digitOrLine (fun offset _ => offset + 1) offset offset text).1 =
        (scanWhile digitOrLine (fun offset _ => offset + 1) offset offset text).2.offset := by
  obtain ⟨consumed, hmov, hstop, -⟩ := @scanWhile_end digitOrLine (fun offset _ => offset + 1)
    (fun offset ch hp => by rw [digitOrLine_size hp]) text offset
  exact ⟨consumed, hmov, hstop⟩

variable {scan : NumberScan}

theorem scanFraction_reached (h : scan.Reached index text) :
    (scanFraction scan).Reached index text := by
  unfold scanFraction
  split
  · rename_i digit rest hrest
    split
    · obtain ⟨-, consumed, hne, hmov⟩ := h
      obtain ⟨more, hmore, hstop⟩ := digits_end (digit :: rest) (scan.cursor.offset + 1)
      have hdot : Moved scan.cursor ⟨scan.cursor.offset + 1, digit :: rest⟩ ['.'] := ⟨hrest, rfl⟩
      exact ⟨hstop, _, by simp [hne], hmov.trans (hdot.trans hmore)⟩
    · exact h
  · exact h

theorem skipSign_moved (cursor : Cursor) : ∃ consumed, Moved cursor (skipSign cursor) consumed := by
  unfold skipSign
  split
  · rename_i ch rest hrest
    split
    · rename_i hsign
      refine ⟨[ch], hrest, ?_⟩
      rcases hsign with rfl | rfl <;> rfl
    · exact ⟨[], .refl _⟩
  · exact ⟨[], .refl _⟩

theorem scanExponent_reached (h : scan.Reached index text) :
    (scanExponent scan).Reached index text := by
  unfold scanExponent
  split
  · rename_i ch rest hrest
    split
    · rename_i hletter
      obtain ⟨-, consumed, hne, hmov⟩ := h
      have hmarker : Moved scan.cursor ⟨scan.cursor.offset + 1, rest⟩ [ch] := by
        refine ⟨hrest, ?_⟩
        rcases hletter with rfl | rfl <;> rfl
      obtain ⟨sign, hsign⟩ := skipSign_moved ⟨scan.cursor.offset + 1, rest⟩
      obtain ⟨more, hmore, hstop⟩ := digits_end (skipSign ⟨scan.cursor.offset + 1, rest⟩).rest
        (skipSign ⟨scan.cursor.offset + 1, rest⟩).offset
      exact ⟨hstop, _, by simp [hne], hmov.trans (hmarker.trans (hsign.trans hmore))⟩
    · exact h
  · exact h

theorem scanDecimal_scanned (h : Within input ⟨index, ch :: rest⟩) (hch : ch.utf8Size = 1) :
    ∃ scan, scanDecimal input index rest = some scan ∧ Scanned index (ch :: rest) scan := by
  have hone : Moved ⟨index, ch :: rest⟩ ⟨index + 1, rest⟩ [ch] := hch ▸ moved_one index ch rest
  obtain ⟨digits, hdigs, hend⟩ := digits_end rest (index + 1)
  unfold scanDecimal
  dsimp only
  generalize scanWhile digitOrLine (fun offset _ => offset + 1) (index + 1) (index + 1) rest = first
    at hdigs hend
  have hfst : NumberScan.Reached index (ch :: rest) ⟨.number, first.1, first.2⟩ :=
    ⟨hend, _, by simp, hone.trans hdigs⟩
  have hrch := scanExponent_reached (scanFraction_reached hfst)
  generalize scanExponent (scanFraction ⟨.number, first.1, first.2⟩) = scan at hrch
  obtain ⟨hstop, consumed, hne, hmov⟩ := hrch
  rw [hstop]
  obtain ⟨word, hword, hwordEnd, -⟩ := @scanWhile_end wordCharacter behind (fun _ _ _ => rfl)
    scan.cursor.rest scan.cursor.offset
  exact spelled_one h (by simp [hne]) (hmov.trans hword) hwordEnd _

theorem scanNumber_scanned (h : Within input ⟨index, ch :: rest⟩) (hch : ch.utf8Size = 1) :
    ∃ scan, scanNumber input index ch rest = some scan ∧ Scanned index (ch :: rest) scan := by
  unfold scanNumber
  split
  · rename_i base more
    split
    · rename_i hbased
      have htwo : Moved ⟨index, ch :: base :: more⟩ ⟨index + 2, more⟩ [ch, base] := by
        refine ⟨rfl, ?_⟩
        obtain ⟨rfl, rfl | rfl | rfl⟩ := hbased <;> rfl
      obtain ⟨word, hword, hwordEnd, -⟩ := @scanWhile_end wordCharacter (fun offset _ => offset + 1)
        (fun offset ch hp => by rw [wordCharacter_size hp]) more (index + 2)
      exact spelled_one h (by simp) (htwo.trans hword) hwordEnd _
    · exact scanDecimal_scanned h hch
  · exact scanDecimal_scanned h hch

theorem scanIdentifier_scanned (h : Within input ⟨index, ch :: rest⟩) (hch : wordCharacter ch = true) :
    ∃ scan, scanIdentifier input index (ch :: rest) = some scan ∧ Scanned index (ch :: rest) scan := by
  obtain ⟨word, hword, hend, hmax⟩ := @scanWhile_spec wordCharacter (fun offset _ => offset) 1
    (fun offset ch hp => by rw [wordCharacter_size hp]) (ch :: rest) index index
  have hne : word ≠ [] := by
    rintro rfl
    have hfalse := hmax ch rest hword.rest.symm
    rw [hch] at hfalse
    cases hfalse
  obtain ⟨-, hend⟩ := hend.resolve_left fun hnil => hne hnil.1
  exact spelled_one h hne hword hend _

/-! ## All tokens -/

theorem isAsciiDigit_word (h : isAsciiDigit ch = true) : wordCharacter ch = true := by
  unfold wordCharacter isAsciiAlphanumeric
  simp [h]

theorem scanWord_scanned (h : Within input ⟨index, ch :: rest⟩) :
    ∃ scan, scanWord input index ch rest = some scan ∧ Scanned index (ch :: rest) scan := by
  unfold scanWord
  split
  · rename_i hquo
    subst hquo
    exact @scanCharacter_scanned input rest index false ['\''] h rfl
  · split
    · rename_i hbyte
      obtain ⟨rfl, hnext⟩ := hbyte
      cases rest with
      | nil => cases hnext
      | cons next rest =>
        obtain rfl : next = '\'' := Option.some.inj hnext
        exact @scanCharacter_scanned input rest index true ['b', '\''] h rfl
    · split
      · rename_i hdig
        exact scanNumber_scanned h (wordCharacter_size (isAsciiDigit_word hdig))
      · split
        · rename_i hletter
          refine scanIdentifier_scanned h ?_
          unfold wordCharacter isAsciiAlphanumeric
          rcases hletter with rfl | hletter
          · rfl
          · simp [hletter]
        · exact ⟨_, rfl, @emit_scanned rest index [ch] _ _ (cons_ne_nil _ _) (by simp)⟩

theorem scanPunctuation_scanned (h : Within input ⟨index, ch :: rest⟩) :
    ∃ scan, scanPunctuation input index ch rest = some scan ∧ Scanned index (ch :: rest) scan := by
  have hsing : ∀ {ch : Char} (kind : TokenKind), ch.utf8Size = 1 →
      Scanned index (ch :: rest) (emit kind index 1 rest) := fun {ch} kind hch =>
    @emit_scanned rest index [ch] 1 kind (cons_ne_nil _ _) (by simp [hch])
  unfold scanPunctuation
  split
  all_goals first
    | exact ⟨_, rfl, hsing _ rfl⟩
    | exact ⟨_, rfl, oneOrTwo_scanned _ _ rfl rfl⟩
    | exact ⟨_, rfl, scanDot_scanned⟩
    | exact ⟨_, rfl, scanEq_scanned⟩
    | exact ⟨_, rfl, scanMinus_scanned⟩
    | exact ⟨_, rfl, scanSlash_scanned⟩
    | exact ⟨_, rfl, scanBang_scanned⟩
    | exact ⟨_, rfl, scanBitwise_scanned h rfl⟩
    | exact scanWord_scanned h

/-- Every iteration covers what it consumes, at least one character. -/
theorem scanToken_scanned (h : Within input ⟨index, ch :: rest⟩) :
    ∃ scan, scanToken input index ch rest = some scan ∧ Scanned index (ch :: rest) scan := by
  unfold scanToken
  split
  · rename_i hopens
    exact scanString_scanned h hopens
  · split
    · rename_i hformat
      obtain ⟨rfl, -⟩ := hformat
      exact ⟨_, rfl, @emit_scanned rest index ['f'] 1 _ (cons_ne_nil _ _) rfl⟩
    · split
      · rename_i hspace
        obtain ⟨consumed, hmov, hstop, hne⟩ := @scanWhile_end isWhitespace behind (fun _ _ _ => rfl)
          (ch :: rest) index
        exact ⟨_, rfl, scanned_one (hne ch rest rfl hspace) hmov hstop⟩
      · exact scanPunctuation_scanned h

theorem lexLoop_covers (bound : Nat) : ∀ {cursor : Cursor}, Within input cursor →
    cursor.rest.length ≤ bound →
    ∃ tokens, lexLoop input bound cursor = some (tokens ++ [⟨.eof, size input, size input⟩]) ∧
      Covers cursor.offset cursor.rest tokens := by
  induction bound with
  | zero =>
    rintro ⟨offset, rest⟩ h hbnd
    obtain rfl : rest = [] := length_eq_zero_iff.mp (Nat.le_zero.mp hbnd)
    exact ⟨[], rfl, rfl⟩
  | succ bound ih =>
    rintro ⟨index, rest⟩ h hbnd
    cases rest with
    | nil => exact ⟨[], rfl, rfl⟩
    | cons ch rest =>
      obtain ⟨⟨tokens, cursor⟩, hscan, consumed, hne, hmov, hcovs⟩ := scanToken_scanned h
      have hlen := hmov.length
      have hpos := length_pos_of_ne_nil hne
      change rest.length + 1 = consumed.length + cursor.rest.length at hlen
      change rest.length + 1 ≤ bound + 1 at hbnd
      obtain ⟨more, hmore, hmoreCovers⟩ := ih (h.moved hmov) (by
        show cursor.rest.length ≤ bound
        omega)
      unfold lexLoop
      dsimp only [Option.bind_eq_bind]
      rw [hscan, Option.bind_some, hmore, Option.bind_some]
      refine ⟨tokens ++ more, by rw [append_assoc], ?_⟩
      have hrest : ch :: rest = consumed ++ cursor.rest := hmov.rest
      have hoff : cursor.offset = index + size consumed := hmov.offset
      show Covers index (ch :: rest) (tokens ++ more)
      rw [hrest]
      refine hcovs.append ?_
      rw [← hoff]
      exact hmoreCovers

/-! ## Tilings -/

/-- The tokens of a source: spellings one after another, and an empty one at the end. -/
structure Tiling (input : List Char) (tokens : List Token) : Prop where
  first : tokens.head?.map Token.start = some 0
  consecutive : tokens.IsChain fun token next => next.start = token.stop
  nonempty : ∀ token ∈ tokens.dropLast, token.start < token.stop
  boundaries : ∀ token ∈ tokens, Boundary input token.start ∧ Boundary input token.stop
  last : tokens.getLast? = some ⟨.eof, size input, size input⟩
  spelled : ∃ pieces : List (List Char),
    tokens.map (fun token => slice input token.start token.stop) = pieces.map some ∧
      pieces.flatten = input

theorem Covers.chain {tokens : List Token} {last : Token} (h : Covers offset text tokens)
    (hlast : last.start = offset + size text) :
    (tokens ++ [last]).head?.map Token.start = some offset ∧
      (tokens ++ [last]).IsChain fun token next => next.start = token.stop := by
  induction tokens generalizing offset text with
  | nil =>
    obtain rfl : text = [] := h
    exact ⟨congrArg some hlast, .singleton _⟩
  | cons token tokens ih =>
    obtain ⟨piece, rest, -, rfl, hst, hstop, htoks⟩ := h
    rw [size_append, ← Nat.add_assoc] at hlast
    obtain ⟨hhead, hchn⟩ := ih htoks hlast
    refine ⟨congrArg some hst, ?_⟩
    rw [cons_append]
    cases hrest : tokens ++ [last] with
    | nil => exact .singleton _
    | cons next rest =>
      rw [hrest] at hhead hchn
      refine isChain_cons_cons.mpr ⟨?_, hchn⟩
      rw [hstop]
      exact Option.some.inj hhead

/-- Where each token of a covered text stands in the input. -/
theorem Covers.placed {tokens : List Token} {before : List Char} (h : Covers (size before) text tokens) :
    ∃ pieces : List (List Char),
      tokens.map (fun token => slice (before ++ text) token.start token.stop) = pieces.map some ∧
      pieces.flatten = text ∧ ∀ token ∈ tokens, token.start < token.stop ∧
        Boundary (before ++ text) token.start ∧ Boundary (before ++ text) token.stop := by
  induction tokens generalizing before text with
  | nil =>
    obtain rfl : text = [] := h
    exact ⟨[], rfl, rfl, fun _ hmem => nomatch hmem⟩
  | cons token tokens ih =>
    obtain ⟨piece, rest, hpce, rfl, hst, hstop, htoks⟩ := h
    rw [← size_append] at htoks
    obtain ⟨pieces, hpcs, hflatten, hplcd⟩ := ih htoks
    rw [append_assoc] at hpcs hplcd
    refine ⟨piece :: pieces, ?_, ?_, fun other hother => ?_⟩
    · rw [map_cons, map_cons, hpcs, hst, hstop, slice_part]
    · rw [flatten_cons, hflatten]
    · rcases mem_cons.mp hother with rfl | hother
      · refine ⟨?_, ⟨before, piece ++ rest, rfl, hst⟩, ⟨before ++ piece, rest, ?_, ?_⟩⟩
        · rw [hst, hstop]
          have := size_pos hpce
          omega
        · rw [append_assoc]
        · rw [hstop, size_append]
      · exact hplcd other hother

/-- For every source the lexer ends, and its tokens tile it. -/
theorem lex_tiles (input : List Char) : ∃ tokens, lex input = some tokens ∧ Tiling input tokens := by
  have hwith : Within input ⟨0, input⟩ := ⟨[], rfl, rfl⟩
  obtain ⟨tokens, hlex, hcovs⟩ := lexLoop_covers input.length hwith (Nat.le_refl _)
  have hcovs : Covers 0 input tokens := hcovs
  obtain ⟨hhead, hchn⟩ := @Covers.chain _ _ _ ⟨.eof, size input, size input⟩ hcovs (Nat.zero_add _).symm
  obtain ⟨pieces, hpcs, hflatten, hplcd⟩ := @Covers.placed input tokens [] hcovs
  have hend : Boundary input (size input) := ⟨input, [], (List.append_nil _).symm, rfl⟩
  refine ⟨_, hlex, hhead, hchn, fun token hmem => ?_, fun token hmem => ?_, List.getLast?_concat,
    pieces ++ [[]], ?_, ?_⟩
  · rw [List.dropLast_concat] at hmem
    exact (hplcd token hmem).1
  · rcases List.mem_append.mp hmem with hmem | hmem
    · exact (hplcd token hmem).2
    · obtain rfl := List.mem_singleton.mp hmem
      exact ⟨hend, hend⟩
  · have heof : slice input (size input) (size input) = some [] := by
      have hslc := slice_part input [] []
      rwa [List.append_nil, List.append_nil] at hslc
    rw [List.map_append, List.map_append, ← hpcs, List.map_singleton, heof]
    rfl
  · rw [List.flatten_append, hflatten]
    simp

end Kagari.Syntax
