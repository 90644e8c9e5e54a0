import Kagari.Syntax.Recognition

/-!
# Literal tokens and the decoders

The kind of a literal token agrees with the decoders of `Literal`, both ways: a token of a literal kind has a
spelling that the decoder of the kind accepts, and where the lexer begins a token at an accepted spelling,
that is the token.
-/

namespace Kagari.Syntax

open Lib.Text List Option

/-- The decoders of literals; for numbers, their grammar. -/
def decoder : TokenKind → Option (List Char → Bool)
  | .string => some fun text => isOk (decodeStringLiteral text)
  | .formatText => some fun text => isOk (decodeStringFragment text)
  | .byteString => some fun text => isOk (decodeByteStringLiteral text)
  | .char => some fun text => isOk (decodeCharLiteral text)
  | .byteChar => some fun text => isOk (decodeByteCharLiteral text)
  | .number => some isIntegerLiteral
  | _ => none

/-- The decoder of the kind, if there is one, accepts the spelling. -/
def Token.Accepted (input : List Char) (token : Token) : Prop :=
  ∀ accepts, decoder token.kind = some accepts →
    ∃ text, slice input token.start token.stop = some text ∧ accepts text = true

/-! ## Tokens are accepted -/

variable {scan : Scan} {byte : Bool}

section Accepted

variable {input text rest : List Char} {index start : Nat} {ch : Char} {kind : TokenKind}

theorem accepted_other {token : Token} (h : decoder token.kind = none) : token.Accepted input := by
  intro accepts haccs
  rw [h] at haccs
  cases haccs

/-- A kind for each spelling. -/
def KindOf (kind : List Char → TokenKind) : Prop :=
  ∀ text accepts, decoder (kind text) = some accepts → accepts text = true

theorem accepted_spelled {kind : List Char → TokenKind} (hkind : KindOf kind) {stop : Nat} {cursor : Cursor}
    (h : ((slice input start stop).map fun text => ([⟨kind text, start, stop⟩], cursor)) = some scan) :
    ∀ token ∈ scan.1, token.Accepted input := by
  obtain ⟨text, hslc, rfl⟩ := map_eq_some_iff.mp h
  refine forall_mem_singleton.mpr fun accepts haccs => ⟨text, hslc, hkind text accepts haccs⟩

theorem plainKind_kindOf (byte : Bool) : KindOf (plainKind byte) := by
  intro text accepts h
  unfold plainKind at h
  split at h
  · split at h
    · cases h
      assumption
    · cases h
  · split at h
    · cases h
      assumption
    · cases h

theorem quotedKind_kindOf (closed byte : Bool) : KindOf (quotedKind closed byte) := by
  intro text accepts h
  unfold quotedKind at h
  split at h
  · split at h
    · rename_i hok
      cases h
      exact (Bool.and_eq_true _ _ ▸ hok).2
    · cases h
  · split at h
    · rename_i hok
      cases h
      exact (Bool.and_eq_true _ _ ▸ hok).2
    · cases h

theorem integerKind_kindOf : KindOf fun text => if isIntegerLiteral text then .number else .unknown := by
  intro text accepts h
  dsimp only at h
  split at h
  · cases h
    assumption
  · cases h

theorem decoder_dite {c : Prop} {inst : Decidable c} {t : c → TokenKind} {e : ¬ c → TokenKind}
    (ht : ∀ h, decoder (t h) = none) (he : ∀ h, decoder (e h) = none) : decoder (@dite _ c inst t e) = none := by
  split
  · exact ht _
  · exact he _

set_option linter.auxLemma false in
theorem identifierKind_other (name : List Char) : decoder (identifierKind name) = none := by
  -- too many keywords for `split`: the tests on their characters are taken one by one
  unfold identifierKind identifierKind.match_1
  simp only [eq_rec_constant]
  repeat' first
    | rfl
    | apply decoder_dite <;> intro _
    | rcases name with _ | ⟨_, name⟩

theorem identifierKind_kindOf : KindOf identifierKind := by
  intro text accepts h
  rw [identifierKind_other] at h
  cases h

/-- The parts of a number have no other literal kind. -/
def NumberKind (kind : TokenKind) : Prop := kind = .number ∨ kind = .float ∨ kind = .unknown

theorem decimalKind_kindOf (hkind : NumberKind kind) : KindOf (decimalKind kind) := by
  intro text accepts h
  unfold decimalKind at h
  generalize hsuffixed : (if ((numericLiteralParts text).2.any fun stop => stop.head? = some 'f') = true then
    TokenKind.float else kind) = kind' at h
  have hkind' : NumberKind kind' := by
    rw [← hsuffixed]
    split
    · exact .inr (.inl rfl)
    · exact hkind
  dsimp only at h
  split at h
  · cases h
  · rename_i hnot
    rcases hkind' with rfl | rfl | rfl
    · cases h
      simpa using hnot
    · cases h
    · cases h

theorem scanFraction_kind {scan : NumberScan} (h : NumberKind scan.kind) : NumberKind (scanFraction scan).kind := by
  unfold scanFraction
  split
  · split
    · exact .inr (.inl rfl)
    · exact h
  · exact h

theorem scanExponent_kind {scan : NumberScan} (h : NumberKind scan.kind) : NumberKind (scanExponent scan).kind := by
  unfold scanExponent
  split
  · split
    · show NumberKind (if _ then _ else _)
      split
      · exact .inr (.inl rfl)
      · exact .inr (.inr rfl)
    · exact h
  · exact h

theorem scanNumber_kinds (h : scanNumber input index ch rest = some scan) :
    ∀ token ∈ scan.1, token.Accepted input := by
  have hdec : scanDecimal input index rest = some scan → ∀ token ∈ scan.1, token.Accepted input := by
    intro h
    unfold scanDecimal at h
    dsimp only at h
    exact accepted_spelled (decimalKind_kindOf (scanExponent_kind (scanFraction_kind (.inl rfl)))) h
  unfold scanNumber at h
  split at h
  · split at h
    · unfold scanBased at h
      dsimp only at h
      exact accepted_spelled integerKind_kindOf h
    · exact hdec h
  · exact hdec h

theorem emit_kinds {length : Nat} (h : decoder kind = none) : ∀ token ∈ (emit kind index length rest).1,
    token.Accepted input :=
  forall_mem_singleton.mpr (accepted_other h)

theorem oneOrTwo_kinds {second : Char} {long short : TokenKind} (hlong : decoder long = none)
    (hshort : decoder short = none) : ∀ token ∈ (oneOrTwo second long short index rest).1, token.Accepted input := by
  unfold oneOrTwo
  split
  · exact emit_kinds hshort
  · split
    · exact emit_kinds hlong
    · exact emit_kinds hshort

theorem bitwiseKind_other (ch : Char) (rest : List Char) : decoder (bitwiseKind ch rest).1 = none := by
  unfold bitwiseKind
  split
  · dsimp only
    split
    · rfl
    · split <;> rfl
  · split
    · dsimp only
      split <;> rfl
    · dsimp only
      split
      · rfl
      · split <;> rfl
  · dsimp only
    split
    · rfl
    · split <;> rfl

theorem scanSlash_kinds : ∀ token ∈ (scanSlash index rest).1, token.Accepted input := by
  unfold scanSlash
  split
  · exact forall_mem_singleton.mpr (accepted_other rfl)
  · refine forall_mem_singleton.mpr (accepted_other ?_)
    dsimp only
    split <;> rfl
  · exact oneOrTwo_kinds rfl rfl

theorem scanWord_kinds (h : scanWord input index ch rest = some scan) :
    ∀ token ∈ scan.1, token.Accepted input := by
  unfold scanWord at h
  split at h
  · exact accepted_spelled (quotedKind_kindOf _ false) h
  split at h
  · exact accepted_spelled (quotedKind_kindOf _ true) h
  split at h
  · exact scanNumber_kinds h
  split at h
  · exact accepted_spelled identifierKind_kindOf h
  · cases h
    exact emit_kinds rfl

theorem scanPunctuation_kinds (h : scanPunctuation input index ch rest = some scan) :
    ∀ token ∈ scan.1, token.Accepted input := by
  unfold scanPunctuation at h
  split at h
  all_goals first
    | exact scanWord_kinds h
    | cases h
  all_goals first
    | exact emit_kinds rfl
    | exact oneOrTwo_kinds rfl rfl
    | exact scanSlash_kinds
    | exact forall_mem_singleton.mpr (accepted_other (bitwiseKind_other _ _))
    | skip
  · unfold scanDot
    split <;> exact emit_kinds rfl
  · unfold scanEq
    split <;> exact emit_kinds rfl
  · unfold scanMinus
    split
    · exact emit_kinds rfl
    · exact oneOrTwo_kinds rfl rfl
  · unfold scanBang
    split
    · exact emit_kinds rfl
    · exact oneOrTwo_kinds rfl rfl

end Accepted

/-! ## Strings are accepted -/

variable (bound : Nat) (content : List Char)

section Strings

variable {input text : List Char} {start stop : Nat} {cursor : Cursor} {tokens : List Token}

theorem pushText_kinds (h : pushText input start stop = some tokens) : ∀ token ∈ tokens, token.Accepted input := by
  unfold pushText at h
  split at h
  · cases h
    exact nofun
  · obtain ⟨text, hslc, rfl⟩ := map_eq_some_iff.mp h
    refine forall_mem_singleton.mpr fun accepts haccs => ⟨text, hslc, ?_⟩
    dsimp only at haccs
    split at haccs
    · cases haccs
      assumption
    · cases haccs

theorem holeTokens_kinds (start stop : Nat) :
    ∀ token ∈ holeTokens content start stop, token.Accepted input := by
  have hnamed : ∀ (name : List Char) (more : List Token), (∀ token ∈ more, token.Accepted input) →
      ∀ token ∈ (if isHoleName name then ⟨.ident, start, start + size name⟩ :: more
        else if start ≠ stop then [⟨.unknown, start, stop⟩] else []), token.Accepted input := by
    intro name more hmore
    split
    · exact forall_mem_cons.mpr ⟨accepted_other rfl, hmore⟩
    · split
      · exact forall_mem_singleton.mpr (accepted_other rfl)
      · exact nofun
  unfold holeTokens
  cases stripEnd [':', '?'] content with
  | none => exact hnamed content [] nofun
  | some name =>
    refine hnamed name _ (forall_mem_cons.mpr ⟨accepted_other rfl, ?_⟩)
    exact forall_mem_singleton.mpr (accepted_other rfl)

theorem scanHole_kinds (h : scanHole input start cursor = some scan) :
    ∀ token ∈ scan.1, token.Accepted input := by
  unfold scanHole at h
  obtain ⟨content, -, rfl⟩ := map_eq_some_iff.mp h
  split
  · refine forall_mem_append.mpr ⟨holeTokens_kinds _ _ _, ?_⟩
    exact forall_mem_singleton.mpr (accepted_other rfl)
  · exact holeTokens_kinds _ _ _

theorem scanFormat_kinds : ∀ {cursor : Cursor} {start : Nat} {scan : FormatScan},
    scanFormat input bound start cursor = some scan → ∀ token ∈ scan.tokens, token.Accepted input := by
  have hended : ∀ {bound offset start : Nat} {scan : FormatScan},
      scanFormat input bound start ⟨offset, []⟩ = some scan → ∀ token ∈ scan.tokens, token.Accepted input := by
    intro bound offset start scan h
    unfold scanFormat at h
    obtain ⟨text, htext, rfl⟩ := map_eq_some_iff.mp h
    exact pushText_kinds htext
  induction bound with
  | zero =>
    rintro ⟨offset, rest⟩ start scan h
    cases rest with
    | nil => exact hended h
    | cons ch rest => cases h
  | succ bound ih =>
    rintro ⟨index, rest⟩ start scan h
    cases rest with
    | nil => exact hended h
    | cons ch rest =>
      rw [scanFormat] at h
      split at h
      · obtain ⟨text, htext, rfl⟩ := map_eq_some_iff.mp h
        exact forall_mem_append.mpr
          ⟨pushText_kinds htext, forall_mem_singleton.mpr (accepted_other rfl)⟩
      split at h
      · exact ih h
      split at h
      · exact ih h
      split at h
      · obtain ⟨text, htext, h⟩ := bind_eq_some_iff.mp h
        obtain ⟨⟨hole, cursor⟩, hhole, h⟩ := bind_eq_some_iff.mp h
        obtain ⟨after, haft, h⟩ := bind_eq_some_iff.mp h
        cases h
        refine forall_mem_append.mpr ⟨pushText_kinds htext, forall_mem_cons.mpr ⟨accepted_other rfl, ?_⟩⟩
        exact forall_mem_append.mpr ⟨scanHole_kinds hhole, ih haft⟩
      · exact ih h

/-- A closed string without holes is one text. -/
theorem scanFormat_closed : ∀ {cursor : Cursor} {pending : List Char} {scan : FormatScan},
    Moved ⟨start, text⟩ cursor pending → scanFormat input bound start cursor = some scan →
    scan.hasHole = false → scan.closed = true →
    ∃ content tokens, text = content ++ '"' :: scan.cursor.rest ∧ scan.stop = start + size content + 1 ∧
      pushText input start (start + size content) = some tokens ∧ tokens ⊆ scan.tokens := by
  have hended : ∀ {bound offset : Nat} {scan : FormatScan},
      scanFormat input bound start ⟨offset, []⟩ = some scan → scan.closed = false := by
    intro bound offset scan h
    unfold scanFormat at h
    obtain ⟨text, -, rfl⟩ := map_eq_some_iff.mp h
    rfl
  induction bound with
  | zero =>
    rintro ⟨offset, rest⟩ pending scan hmov h hhole hclos
    cases rest with
    | nil =>
      rw [hended h] at hclos
      cases hclos
    | cons ch rest => cases h
  | succ bound ih =>
    rintro ⟨index, rest⟩ pending scan hmov h hhole hclos
    cases rest with
    | nil =>
      rw [hended h] at hclos
      cases hclos
    | cons ch rest =>
      have hone := moved_one index ch rest
      rw [scanFormat] at h
      split at h
      · rename_i hquo
        subst hquo
        obtain ⟨tokens, htoks, rfl⟩ := map_eq_some_iff.mp h
        have hidx : index = start + size pending := hmov.offset
        rw [hidx] at htoks ⊢
        exact ⟨pending, tokens, hmov.rest, rfl, htoks, subset_append_left _ _⟩
      split at h
      · rename_i hesc
        subst hesc
        obtain ⟨consumed, hskip⟩ := skipEscape_moved ⟨index + 1, rest⟩
        exact ih (hmov.trans (hone.trans hskip)) h hhole hclos
      split at h
      · rename_i hdbl
        obtain ⟨hbrace, hnext⟩ := hdbl
        cases rest with
        | nil => cases hnext
        | cons next rest =>
          obtain rfl : next = ch := some.inj hnext
          have htwo : Moved ⟨index, next :: next :: rest⟩ ⟨index + 2, rest⟩ [next, next] := by
            refine ⟨rfl, ?_⟩
            rcases hbrace with rfl | rfl <;> rfl
          exact ih (hmov.trans htwo) h hhole hclos
      split at h
      · obtain ⟨before, -, h⟩ := bind_eq_some_iff.mp h
        obtain ⟨⟨hole, cursor⟩, -, h⟩ := bind_eq_some_iff.mp h
        obtain ⟨after, -, h⟩ := bind_eq_some_iff.mp h
        cases h
        cases hhole
      · exact ih (hmov.trans hone) h hhole hclos

/-- Text that has no unknown token is accepted. -/
theorem pushText_known {content rest : List Char} (hwith : Within input ⟨start, content ++ rest⟩)
    (h : pushText input start (start + size content) = some tokens) (hkn : ∀ token ∈ tokens, token.kind ≠ .unknown) :
    isOk (decodeStringFragment content) = true := by
  unfold pushText at h
  split at h
  · rename_i hemp
    obtain rfl : content = [] := by
      by_contra hne
      have := size_pos hne
      omega
    rfl
  · have hmov : Moved ⟨start, content ++ rest⟩ ⟨start + size content, rest⟩ content := ⟨rfl, rfl⟩
    rw [show slice input start (start + size content) = some content from hwith.slice hmov] at h
    cases h
    by_contra hnot
    refine hkn _ mem_cons_self ?_
    exact if_neg hnot

theorem decodeStringLiteral_cooked :
    decodeStringLiteral ('"' :: (content ++ ['"'])) = decodeStringFragment content := by
  have hcont := (@stringContent_iff ('"' :: (content ++ ['"'])) content .cooked).mpr ⟨rfl, Nat.zero_le _⟩
  unfold decodeStringLiteral decodeStringLiteralInner
  rw [hcont]
  rfl

theorem formatTokens_kinds {scan : FormatScan} {bound : Nat} (hwith : Within input ⟨start, '"' :: text⟩)
    (h : scanFormat input bound (start + 1) ⟨start + 1, text⟩ = some scan) :
    ∀ token ∈ formatTokens start (start + 1) scan, token.Accepted input := by
  unfold formatTokens
  split
  · exact forall_mem_cons.mpr ⟨accepted_other rfl, scanFormat_kinds bound h⟩
  · rename_i hhole
    refine forall_mem_singleton.mpr ?_
    split
    · rename_i hvld
      obtain ⟨hclos, hkn⟩ := (Bool.and_eq_true _ _).mp hvld
      obtain ⟨content, tokens, rfl, hstop, htoks, hsub⟩ :=
        scanFormat_closed bound (.refl _) h (by simpa using hhole) hclos
      have hone : Within input ⟨start + 1, content ++ '"' :: scan.cursor.rest⟩ := hwith.moved (moved_one start '"' _)
      have hacc := pushText_known hone htoks fun token htok => by
        simpa using all_eq_true.mp hkn token (hsub htok)
      have hmov : Moved ⟨start, '"' :: (content ++ '"' :: scan.cursor.rest)⟩ ⟨scan.stop, scan.cursor.rest⟩
          ('"' :: (content ++ ['"'])) := by
        refine ⟨by simp, ?_⟩
        show scan.stop = start + size _
        rw [hstop, size_cons, size_append]
        show _ = start + (1 + (size content + 1))
        omega
      intro accepts haccs
      cases haccs
      refine ⟨_, hwith.slice hmov, ?_⟩
      show isOk (decodeStringLiteral _) = true
      rw [decodeStringLiteral_cooked]
      exact hacc
    · exact accepted_other rfl

theorem scanPlain_kinds (delimiter : StringDelimiter) (byte : Bool) (bound : Nat) : ∀ {cursor : Cursor} {scan : Scan},
    scanPlain input start delimiter byte bound cursor = some scan → ∀ token ∈ scan.1, token.Accepted input := by
  have hended : ∀ {bound offset : Nat} {scan : Scan},
      scanPlain input start delimiter byte bound ⟨offset, []⟩ = some scan → ∀ token ∈ scan.1, token.Accepted input := by
    intro bound offset scan h
    unfold scanPlain at h
    cases h
    exact forall_mem_singleton.mpr (accepted_other rfl)
  induction bound with
  | zero =>
    rintro ⟨offset, rest⟩ scan h
    cases rest with
    | nil => exact hended h
    | cons ch rest => cases h
  | succ bound ih =>
    rintro ⟨index, rest⟩ scan h
    cases rest with
    | nil => exact hended h
    | cons ch rest =>
      rw [scanPlain] at h
      split at h
      · exact ih h
      split at h
      · exact ih h
      split at h
      · exact ih h
      · exact accepted_spelled (plainKind_kindOf byte) h

theorem scanDelimited_kinds (hwith : Within input ⟨start, text⟩)
    (h : scanDelimited input start byte text = some scan) : ∀ token ∈ scan.1, token.Accepted input := by
  unfold scanDelimited at h
  dsimp only at h
  split at h
  · rename_i delimiter length hopening
    split at h
    · exact scanPlain_kinds delimiter byte _ h
    · -- a cooked string, which begins with its quote
      rename_i hckd
      obtain ⟨hbyte, hckd⟩ := not_or.mp hckd
      obtain rfl := not_not.mp hckd
      obtain rfl : byte = false := by simpa using hbyte
      obtain ⟨right, htext, rfl, -⟩ := StringDelimiter.opening_iff.mp hopening
      obtain rfl : text = '"' :: right := htext
      obtain ⟨format, hformat, rfl⟩ := map_eq_some_iff.mp h
      have hadvance : advanceTo (start + 1) start ('"' :: right) = ⟨start + 1,
        right⟩ := advanceTo_spec ['"'] right start
      exact formatTokens_kinds hwith (hadvance ▸ hformat)
  · cases h
    exact forall_mem_singleton.mpr (accepted_other rfl)

end Strings

/-! ## The lexer -/

variable {ch : Char} {index : Nat} {rest : List Char}

section Lexer

variable {input : List Char} {cursor : Cursor}

theorem scanToken_kinds
    (hwith : Within input ⟨index, ch :: rest⟩) (h : scanToken input index ch rest = some scan) :
    ∀ token ∈ scan.1, token.Accepted input := by
  unfold scanToken at h
  split at h
  · exact scanDelimited_kinds hwith h
  split at h
  · cases h
    exact emit_kinds rfl
  split at h
  · cases h
    exact forall_mem_singleton.mpr (accepted_other rfl)
  · exact scanPunctuation_kinds h

theorem lexLoop_kinds : ∀ {cursor : Cursor} {tokens : List Token}, Within input cursor →
    lexLoop input bound cursor = some tokens → ∀ token ∈ tokens, token.Accepted input := by
  induction bound with
  | zero =>
    rintro ⟨index, rest⟩ tokens hwith h
    cases rest with
    | nil =>
      cases h
      exact forall_mem_singleton.mpr (accepted_other rfl)
    | cons ch rest => cases h
  | succ bound ih =>
    rintro ⟨index, rest⟩ tokens hwith h
    cases rest with
    | nil =>
      cases h
      exact forall_mem_singleton.mpr (accepted_other rfl)
    | cons ch rest =>
      obtain ⟨⟨scanned, cursor⟩, hscan, h⟩ := bind_eq_some_iff.mp h
      obtain ⟨more, hmore, h⟩ := bind_eq_some_iff.mp h
      cases h
      obtain ⟨scan, hscan', consumed, -, hmov, -⟩ := scanToken_scanned hwith
      cases hscan.symm.trans hscan'
      exact forall_mem_append.mpr ⟨scanToken_kinds hwith hscan, ih (hwith.moved hmov) hmore⟩

/-- Where an iteration of the lexer begins. -/
inductive Reached (input : List Char) : Cursor → Prop
  | start : Reached input ⟨0, input⟩
  | step {index : Nat} {ch : Char} {rest : List Char} {tokens : List Token} {cursor : Cursor} :
      Reached input ⟨index, ch :: rest⟩ → scanToken input index ch rest = some (tokens, cursor) → Reached input cursor

theorem Reached.within (h : Reached input cursor) : Within input cursor := by
  induction h with
  | start => exact ⟨[], rfl, rfl⟩
  | step _ hscan ih =>
    obtain ⟨scan, hscan', consumed, -, hmov, -⟩ := scanToken_scanned ih
    cases hscan.symm.trans hscan'
    exact ih.moved hmov

/-- The loop has its tokens from there on. -/
theorem Reached.lexLoop (h : Reached input cursor) :
    ∃ bound before tokens, lexLoop input bound cursor = some tokens ∧ lex input = some (before ++ tokens) := by
  induction h with
  | start =>
    obtain ⟨tokens, htoks, -⟩ := lex_tiles input
    exact ⟨_, [], tokens, htoks, htoks⟩
  | step _ hscan ih =>
    obtain ⟨bound, before, tokens, hloop, hlex⟩ := ih
    cases bound with
    | zero => cases hloop
    | succ bound =>
      obtain ⟨scan, hscan', hloop⟩ := bind_eq_some_iff.mp hloop
      cases hscan.symm.trans hscan'
      obtain ⟨more, hmore, hloop⟩ := bind_eq_some_iff.mp hloop
      cases hloop
      exact ⟨bound, _, more, hmore, hlex.trans (by rw [append_assoc])⟩

/-- The tokens of an iteration are tokens of the source. -/
theorem Reached.tokens {tokens : List Token}
    (h : Reached input ⟨index, ch :: rest⟩) (hscan : scanToken input index ch rest = some scan)
    (hlex : lex input = some tokens) : scan.1 ⊆ tokens := by
  obtain ⟨bound, before, after, hloop, hlex'⟩ := h.lexLoop
  cases hlex.symm.trans hlex'
  cases bound with
  | zero => cases hloop
  | succ bound =>
    obtain ⟨scan', hscan', hloop⟩ := bind_eq_some_iff.mp hloop
    cases hscan.symm.trans hscan'
    obtain ⟨more, -, hloop⟩ := bind_eq_some_iff.mp hloop
    cases hloop
    exact fun token htok => mem_append_right _ (mem_append_left _ htok)

end Lexer

/-! ## Accepted spellings are tokens -/

section Recognized

variable {input after spelling : List Char} {index : Nat}

/-- The iteration at a spelling is one token of the kind. -/
def Recognizes (input : List Char) (index : Nat) (kind : TokenKind) (spelling after : List Char) : Prop :=
  ∃ ch rest, spelling ++ after = ch :: rest ∧
    scanToken input index ch rest = some (emit kind index (size spelling) after)

theorem stringLiteral_spec (h : isOk (decodeStringLiteralInner byte spelling) = true) :
    ∃ (delimiter : StringDelimiter) (content : List Char),
      spelling = delimiter.opener ++ (content ++ delimiter.closer) ∧ delimiter.hashes ≤ 255 ∧
      match delimiter with
      | .cooked => isOk (decodeStringContent true byte content) = true
      | .raw _ => closesInside delimiter content = false := by
  obtain ⟨value, h⟩ := isOk_iff.mp h
  obtain ⟨⟨delimiter, content⟩, hcont, h⟩ := Lib.bind_ok.mp h
  obtain ⟨hspel, hhashes⟩ := stringContent_iff.mp hcont
  refine ⟨delimiter, content, hspel, hhashes, ?_⟩
  cases delimiter with
  | cooked => exact isOk_iff.mpr ⟨value, h⟩
  | raw hashes =>
    dsimp only at h ⊢
    split at h
    · cases h
    · exact Bool.eq_false_iff.mpr ‹_›

/-- A raw or byte string that the scanner goes over. -/
theorem recognizes_plain {byte : Bool} {delimiter : StringDelimiter} {content : List Char} {kind : TokenKind}
    (hhashes : delimiter.hashes ≤ 255) (hplain : byte ∨ delimiter ≠ .cooked)
    (hcont : ∀ offset, Follows (scanPlain input index delimiter byte)
      ⟨offset, content ++ (delimiter.closer ++ after)⟩ ⟨offset + size content, delimiter.closer ++ after⟩)
    (hkind : plainKind byte (mark byte ++ (delimiter.opener ++ (content ++ delimiter.closer))) = kind)
    (h : Within input ⟨index, mark byte ++ (delimiter.opener ++ (content ++ delimiter.closer)) ++ after⟩) :
    Recognizes input index kind (mark byte ++ (delimiter.opener ++ (content ++ delimiter.closer))) after := by
  have hscan := scanDelimited_plain hhashes hplain hcont h
  rw [hkind] at hscan
  have hopens : ∃ ch rest, mark byte ++ (delimiter.opener ++ (content ++ delimiter.closer)) ++ after = ch :: rest ∧
      opensString ch rest = true ∧ decide ((ch :: rest).head? = some 'b') = byte := by
    cases byte with
    | true =>
      refine ⟨'b', _, rfl, ?_, rfl⟩
      cases delimiter with
      | cooked => rfl
      | raw hashes => cases hashes <;> rfl
    | false =>
      cases delimiter with
      | cooked => exact ⟨'"', _, rfl, rfl, rfl⟩
      | raw hashes =>
        refine ⟨'r', _, rfl, ?_, rfl⟩
        cases hashes <;> rfl
  obtain ⟨ch, rest, hspel, hopens, hbyte⟩ := hopens
  refine ⟨ch, rest, hspel, ?_⟩
  unfold scanToken scanString
  rw [if_pos hopens, hbyte, ← hspel]
  exact hscan

theorem recognizes_string (hspel : isOk (decodeStringLiteral spelling) = true)
    (h : Within input ⟨index, spelling ++ after⟩) : Recognizes input index .string spelling after := by
  obtain ⟨delimiter, content, rfl, hhashes, hcont⟩ := stringLiteral_spec hspel
  cases delimiter with
  | cooked =>
    have htext : StringDelimiter.cooked.opener ++ (content ++ StringDelimiter.cooked.closer) ++ after =
        '"' :: (content ++ '"' :: after) := by
      simp [StringDelimiter.opener, StringDelimiter.closer, StringDelimiter.hashes]
    rw [htext] at h
    refine ⟨'"', _, htext, ?_⟩
    exact scanDelimited_cooked hcont h
  | raw hashes =>
    refine @recognizes_plain input after index false (.raw hashes) content .string hhashes (.inr (by simp)) ?_ ?_ h
    · exact scanPlain_raw hcont after
    · exact if_pos hspel

theorem recognizes_byteString (hspel : isOk (decodeByteStringLiteral spelling) = true)
    (h : Within input ⟨index, spelling ++ after⟩) : Recognizes input index .byteString spelling after := by
  cases spelling with
  | nil => cases hspel
  | cons ch spelling =>
    obtain ⟨rfl, hinn⟩ : ch = 'b' ∧ isOk (decodeStringLiteralInner true spelling) = true := by
      unfold decodeByteStringLiteral at hspel
      split at hspel
      · rename_i heq
        cases heq
        exact ⟨rfl, hspel⟩
      · cases hspel
    obtain ⟨delimiter, content, rfl, hhashes, hcont⟩ := stringLiteral_spec hinn
    refine @recognizes_plain input after index true delimiter content .byteString hhashes (.inl rfl) ?_
      (if_pos hspel) h
    cases delimiter with
    | cooked =>
      obtain ⟨value, hval⟩ := isOk_iff.mp hcont
      exact (scanPlain_passing input index true true).cooked
        (decodeStringCharacters_cooked _ hval (Nat.le_refl _)) _
    | raw hashes => exact scanPlain_raw hcont after

theorem recognizes_char (hspel : isOk (decodeCharLiteral spelling) = true)
    (h : Within input ⟨index, spelling ++ after⟩) : Recognizes input index .char spelling after := by
  obtain ⟨content, rfl, hcont⟩ := decodeCharacter_quoted hspel
  have hscan := @scanCharacter_accepted input after content index false hcont h
  rw [show quotedKind true false (mark false ++ '\'' :: (content ++ ['\''])) = .char from if_pos hspel] at hscan
  refine ⟨'\'', content ++ '\'' :: after, by simp, hscan⟩

theorem recognizes_byteChar (hspel : isOk (decodeByteCharLiteral spelling) = true)
    (h : Within input ⟨index, spelling ++ after⟩) : Recognizes input index .byteChar spelling after := by
  cases spelling with
  | nil => cases hspel
  | cons ch spelling =>
    obtain ⟨rfl, hinn⟩ : ch = 'b' ∧ isOk (decodeCharacter true spelling) = true := by
      unfold decodeByteCharLiteral at hspel
      split at hspel
      · rename_i heq
        cases heq
        exact ⟨rfl, hspel⟩
      · cases hspel
    obtain ⟨content, rfl, hcont⟩ := decodeCharacter_quoted hinn
    have hscan := @scanCharacter_accepted input after content index true hcont h
    rw [show quotedKind true true (mark true ++ '\'' :: (content ++ ['\''])) = .byteChar from if_pos hspel] at hscan
    exact ⟨'b', '\'' :: (content ++ '\'' :: after), by simp, hscan⟩

/-- Nothing but a number begins with a digit. -/
theorem scanToken_digit (h : isAsciiDigit ch = true) :
    scanToken input index ch rest = scanNumber input index ch rest := by
  have hne : ∀ other, isAsciiDigit other = false → ch ≠ other := by
    rintro other hother rfl
    rw [h] at hother
    cases hother
  have hspace : isWhitespace ch = false := by
    unfold isAsciiDigit at h
    have hdig : '0'.toNat ≤ ch.toNat ∧ ch.toNat ≤ '9'.toNat := of_decide_eq_true h
    have hlow : '0'.toNat = 48 := rfl
    have hhigh : '9'.toNat = 57 := rfl
    unfold isWhitespace
    exact decide_eq_false (by omega)
  have hopens : opensString ch rest = false := by
    unfold opensString
    simp [hne '"' rfl, hne 'r' rfl, hne 'b' rfl]
  unfold scanToken
  rw [hopens, if_neg Bool.false_ne_true, if_neg fun hf => hne 'f' rfl hf.1, hspace, if_neg Bool.false_ne_true]
  unfold scanPunctuation
  split
  all_goals first
    | cases h
    | skip
  unfold scanWord
  rw [if_neg (hne _ rfl), if_neg fun hb => hne 'b' rfl hb.1, if_pos h]

theorem recognizes_number (hspel : isIntegerLiteral spelling = true)
    (hdig : spelling.head?.any isAsciiDigit = true) (hend : NumberEnds spelling after)
    (h : Within input ⟨index, spelling ++ after⟩) : Recognizes input index .number spelling after := by
  cases spelling with
  | nil => cases hdig
  | cons ch rest =>
    refine ⟨ch, rest ++ after, rfl, ?_⟩
    rw [scanToken_digit hdig]
    exact scanNumber_accepted hdig hspel hend h

end Recognized

/-! ## Strings with holes -/

section Holes

variable {input after text : List Char} {start : Nat}

/-- What can stand between the braces of a hole. -/
def IsHole (hole : List Char) : Prop := (∀ ch ∈ hole, ch ≠ '}' ∧ ch ≠ '"') ∧ hole.head? ≠ some '{'

/-- Holes, each with the text that follows it, and the quote. -/
def formatRest : List (List Char × List Char) → List Char
  | [] => ['"']
  | (hole, text) :: parts => '{' :: (hole ++ '}' :: (text ++ formatRest parts))

/-- The texts of a string, with their offsets. -/
def formatTexts (offset : Nat) (text : List Char) : List (List Char × List Char) → List (Nat × List Char)
  | [] => [(offset, text)]
  | (hole, next) :: parts => (offset, text) :: formatTexts (offset + size text + 1 + size hole + 1) next parts

theorem scanHole_accepted {hole rest : List Char} (hhole : IsHole hole)
    (h : Within input ⟨start, hole ++ '}' :: rest⟩) :
    ∃ tokens, scanHole input start ⟨start, hole ++ '}' :: rest⟩ = some (tokens, ⟨start + size hole + 1, rest⟩) := by
  have hinsd : ∀ ch ∈ hole, (!(ch = '}' || ch = '"')) = true := by
    intro ch hch
    simpa using hhole.1 ch hch
  have hend : ∀ ch tail, '}' :: rest = ch :: tail → (!(ch = '}' || ch = '"')) = false := by
    intro ch tail heq
    rw [← (cons.inj heq).1]
    rfl
  have hscan := @scanWhile_word ('}' :: rest) (fun ch => !(ch = '}' || ch = '"')) behind (fun _ _ _ => rfl) hole hinsd
    hend start
  have hmov : Moved ⟨start, hole ++ '}' :: rest⟩ ⟨start + size hole, '}' :: rest⟩ hole := ⟨rfl, rfl⟩
  have hslc := h.slice hmov
  unfold scanHole
  dsimp only at hslc ⊢
  rw [hscan]
  dsimp only
  rw [(h.moved hmov).position, hslc]
  exact ⟨_, rfl⟩

/-- The text before a hole, the hole, and what follows. -/
theorem scanFormat_hole {hole rest : List Char} {bound index : Nat} {tokens : List Token} (hhole : IsHole hole)
    (h : Within input ⟨index, '{' :: (hole ++ '}' :: rest)⟩) (htext : pushText input start index = some tokens)
    {scan : FormatScan} (hrest : scanFormat input bound (index + 1 + size hole + 1) ⟨index + 1 + size hole + 1, rest⟩ =
      some scan) :
    ∃ more, scanFormat input (bound + 1) start ⟨index, '{' :: (hole ++ '}' :: rest)⟩ =
      some { scan with
        tokens := tokens ++ ⟨.formatOpen, index, index + 1⟩ :: (more ++ scan.tokens)
        hasHole := true } := by
  have hone : Within input ⟨index + 1, hole ++ '}' :: rest⟩ := h.moved (moved_one index '{' _)
  obtain ⟨more, hscan⟩ := scanHole_accepted hhole hone
  have hsing : (hole ++ '}' :: rest).head? ≠ some '{' := by
    cases hole with
    | nil => exact nofun
    | cons ch hole => exact hhole.2
  have hmov : Moved ⟨index + 1, hole ++ '}' :: rest⟩ ⟨index + 1 + size hole + 1, rest⟩ (hole ++ ['}']) := by
    refine ⟨by simp, ?_⟩
    rw [size_append]
    rfl
  refine ⟨more, ?_⟩
  rw [scanFormat, if_neg (by decide), if_neg (by decide), if_neg fun hdbl => hsing hdbl.2, if_pos rfl]
  dsimp only [bind_eq_bind]
  rw [htext, bind_some, hscan, bind_some]
  dsimp only
  rw [(hone.moved hmov).position, hrest, bind_some]

/-- Every text of the string is a token. -/
theorem scanFormat_texts (parts : List (List Char × List Char)) : ∀ {text : List Char} {start bound : Nat},
    isOk (decodeStringFragment text) = true → (∀ part ∈ parts,
      IsHole part.1 ∧ isOk (decodeStringFragment part.2) = true) →
    Within input ⟨start, text ++ (formatRest parts ++ after)⟩ → (text ++ (formatRest parts ++ after)).length ≤ bound →
    ∃ scan, scanFormat input bound start ⟨start, text ++ (formatRest parts ++ after)⟩ = some scan ∧
      (parts ≠ [] → scan.hasHole = true) ∧
      ∀ part ∈ formatTexts start text parts, part.2 ≠ [] → ⟨.formatText, part.1,
        part.1 + size part.2⟩ ∈ scan.tokens := by
  induction parts with
  | nil =>
    intro text start bound htext _ hwith hbnd
    obtain ⟨bound', hbnd', hloop⟩ := (scanFormat_passing input start).cooked (decodeStringFragment_cooked htext)
      (formatRest [] ++ after) start bound hbnd
    have hpos : 0 < bound' := Nat.lt_of_lt_of_le (Nat.succ_pos _) hbnd'
    have hquo := @scanFormat_quote input after start bound' (start + size text) hpos
    rw [pushText_accepted hwith htext] at hquo
    refine ⟨_, hloop.trans hquo, fun hne => absurd rfl hne, forall_mem_singleton.mpr fun hne => ?_⟩
    dsimp only at hne ⊢
    rw [if_neg hne]
    exact mem_cons_self
  | cons part parts ih =>
    obtain ⟨hole, next⟩ := part
    intro text start bound htext hpts hwith hbnd
    obtain ⟨⟨hhole, hnext⟩, hpts⟩ := forall_mem_cons.mp hpts
    have hrest : formatRest ((hole, next) :: parts) ++ after =
        '{' :: (hole ++ '}' :: (next ++ (formatRest parts ++ after))) := by
      simp [formatRest]
    rw [hrest] at hwith hbnd ⊢
    obtain ⟨bound', hbnd', hloop⟩ := (scanFormat_passing input start).cooked (decodeStringFragment_cooked htext)
      _ start bound hbnd
    dsimp only at hbnd' hloop
    rw [length_cons, length_append, length_cons] at hbnd'
    obtain ⟨bound', rfl⟩ : ∃ n, bound' = n + 1 := ⟨bound' - 1, by omega⟩
    have hmov : Moved ⟨start, text ++ '{' :: (hole ++ '}' :: (next ++ (formatRest parts ++ after)))⟩
        ⟨start + size text, '{' :: (hole ++ '}' :: (next ++ (formatRest parts ++ after)))⟩ text := ⟨rfl, rfl⟩
    have hbrace := hwith.moved hmov
    have hover : Moved ⟨start + size text, '{' :: (hole ++ '}' :: (next ++ (formatRest parts ++ after)))⟩
        ⟨start + size text + 1 + size hole + 1, next ++ (formatRest parts ++ after)⟩ ('{' :: (hole ++ ['}'])) := by
      refine ⟨by simp, ?_⟩
      rw [size_cons, size_append]
      show start + size text + 1 + size hole + 1 = start + size text + (1 + (size hole + 1))
      omega
    obtain ⟨scan, hscan, -, htexts⟩ := @ih next _ bound' hnext hpts (hbrace.moved hover) (by omega)
    obtain ⟨more, hformat⟩ := scanFormat_hole hhole hbrace (pushText_accepted hwith htext) hscan
    refine ⟨_, hloop.trans hformat, fun _ => rfl, forall_mem_cons.mpr ⟨fun hne => ?_, fun part hpart hne => ?_⟩⟩
    · dsimp only at hne ⊢
      rw [if_neg hne]
      exact mem_cons_self
    · dsimp only
      refine mem_append_right _ (mem_cons_of_mem _ (mem_append_right _ ?_))
      exact htexts part hpart hne

end Holes

/-! ## Agreement -/

/-- The literal tokens of a source are the accepted spellings. A number may be too large to parse, and its
spelling begins with a digit. -/
structure LiteralsAgree (input : List Char) (tokens : List Token) : Prop where
  accepted : ∀ token ∈ tokens, token.Accepted input
  parsed : ∀ token ∈ tokens, token.kind = .number → ∀ text, slice input token.start token.stop = some text →
    ∀ e, parseIntegerLiteral text = .error e → e = "integer literal is outside the u64 range"
  recognized : ∀ kind accepts spelling index after, Reached input ⟨index, spelling ++ after⟩ →
    decoder kind = some accepts → accepts spelling = true → kind ≠ .formatText →
    (kind = .number → spelling.head?.any isAsciiDigit = true ∧ NumberEnds spelling after) →
    ⟨kind, index, index + size spelling⟩ ∈ tokens
  texts : ∀ index text parts after, Reached input ⟨index, '"' :: (text ++ (formatRest parts ++ after))⟩ →
    parts ≠ [] → isOk (decodeStringFragment text) = true →
    (∀ part ∈ parts, IsHole part.1 ∧ isOk (decodeStringFragment part.2) = true) →
    ∀ part ∈ formatTexts (index + 1) text parts, part.2 ≠ [] →
      ⟨.formatText, part.1, part.1 + size part.2⟩ ∈ tokens

theorem recognizes_literal {input spelling after : List Char} {kind : TokenKind}
    {accepts : List Char → Bool} (hdecr : decoder kind = some accepts) (hspel : accepts spelling = true)
    (hkind : kind ≠ .formatText)
    (hnum : kind = .number → spelling.head?.any isAsciiDigit = true ∧ NumberEnds spelling after)
    (h : Within input ⟨index, spelling ++ after⟩) : Recognizes input index kind spelling after := by
  unfold decoder at hdecr
  split at hdecr
  · cases hdecr
    exact recognizes_string hspel h
  · exact absurd rfl hkind
  · cases hdecr
    exact recognizes_byteString hspel h
  · cases hdecr
    exact recognizes_char hspel h
  · cases hdecr
    exact recognizes_byteChar hspel h
  · cases hdecr
    obtain ⟨hdig, hend⟩ := hnum rfl
    exact recognizes_number hspel hdig hend h
  · cases hdecr

theorem format_texts {input text after : List Char} {parts : List (List Char × List Char)} {tokens : List Token}
    (hlex : lex input = some tokens) (h : Reached input ⟨index, '"' :: (text ++ (formatRest parts ++ after))⟩)
    (hne : parts ≠ []) (htext : isOk (decodeStringFragment text) = true)
    (hpts : ∀ part ∈ parts, IsHole part.1 ∧ isOk (decodeStringFragment part.2) = true) :
    ∀ part ∈ formatTexts (index + 1) text parts, part.2 ≠ [] →
      ⟨.formatText, part.1, part.1 + size part.2⟩ ∈ tokens := by
  have hone : Within input ⟨index + 1, text ++ (formatRest parts ++ after)⟩ := h.within.moved (moved_one index '"' _)
  obtain ⟨scan, hscan, hhole, htexts⟩ := scanFormat_texts parts htext hpts hone (Nat.le_refl _)
  have hen := @scanDelimited_enter input index .cooked false (Nat.zero_le _) (text ++ (formatRest parts ++ after))
  have htok : scanToken input index '"' (text ++ (formatRest parts ++ after)) =
      some (⟨.formatStart, index, index + 1⟩ :: scan.tokens, scan.cursor) := by
    refine hen.trans ?_
    rw [if_neg (by simp)]
    refine (congrArg (Option.map _) hscan).trans ?_
    unfold formatTokens
    rw [map_some, if_pos (hhole hne)]
    rfl
  intro part hpart hpartNe
  exact h.tokens htok hlex (mem_cons_of_mem _ (htexts part hpart hpartNe))

/-- For every source, the kinds of its literal tokens agree with the decoders. -/
theorem lex_literals (input : List Char) : ∃ tokens, lex input = some tokens ∧ LiteralsAgree input tokens := by
  obtain ⟨tokens, hlex, -⟩ := lex_tiles input
  have hacc := lexLoop_kinds _ Reached.start.within hlex
  refine ⟨tokens, hlex, hacc, ?_, ?_, ?_⟩
  · intro token htok hkind text hslc e he
    obtain ⟨text', hslc', hint⟩ := hacc token htok isIntegerLiteral (by rw [hkind]; rfl)
    cases hslc.symm.trans hslc'
    exact parseIntegerLiteral_range hint he
  · intro kind accepts spelling index after hrch hdecr hspel hkind hnum
    obtain ⟨ch, rest, htext, hscan⟩ := recognizes_literal hdecr hspel hkind hnum hrch.within
    rw [htext] at hrch
    exact hrch.tokens hscan hlex List.mem_cons_self
  · intro index text parts after hrch hne htext hpts
    exact format_texts hlex hrch hne htext hpts

/-- A number that is too large to parse, and an identifier that parses. -/
theorem lex_numbers_differ :
    (lex ['1', '8', '4', '4', '6', '7', '4', '4', '0', '7', '3', '7', '0', '9', '5', '5', '1', '6', '1', '6'] =
        some [⟨.number, 0, 20⟩, ⟨.eof, 20, 20⟩] ∧
      isOk (parseIntegerLiteral
        ['1', '8', '4', '4', '6', '7', '4', '4', '0', '7', '3', '7', '0', '9', '5', '5', '1', '6', '1', '6']) = false) ∧
    lex ['_', '1'] = some [⟨.ident, 0, 2⟩, ⟨.eof, 2, 2⟩] ∧ isOk (parseIntegerLiteral ['_', '1']) = true := by
  decide +kernel

end Kagari.Syntax
