import Kagari.Syntax.LexerSound
import Kagari.Lib.SortedMap

/-!
# What the decoders accept

The spellings that the decoders of `Literal` accept, in terms that the scanners can follow: the content of a
cooked string is cut into characters, escapes and doubled braces (`Cooked`), and a string is its content
between the delimiters.
-/

namespace Kagari.Syntax

open Lib Lib.Text List Option

/-! ## Escapes -/

theorem ne_of_word {ch other : Char} (h : wordCharacter ch = true) (hother : wordCharacter other = false) :
    ch ≠ other := by
  rintro rfl
  rw [h] at hother
  cases hother

variable {ch : Char} (delimiter : StringDelimiter) {radix : Nat}

/-- The digits of any radix are word characters. -/
theorem toDigit_word {radix digit : Nat} (h : toDigit radix ch = some digit) :
    wordCharacter ch = true := by
  unfold toDigit at h
  obtain ⟨hval, -⟩ := filter_eq_some_iff.mp h
  unfold wordCharacter isAsciiAlphanumeric isAsciiAlphabetic
  split at hval
  · rename_i hdig
    simp [hdig]
  · split at hval
    · rename_i hlower
      simp [hlower]
    · split at hval
      · rename_i hupper
        simp [hupper]
      · cases hval

variable {text rest : List Char} {byte : Bool}

variable {value : Char}

theorem decodeHex_ok
    (h : decodeHex byte text = .ok (value, rest)) :
    ∃ digits, text = digits ++ rest ∧ ∀ ch ∈ digits, wordCharacter ch = true := by
  unfold decodeHex at h
  split at h
  · rename_i high low rest'
    split at h
    · rename_i first second hfst hsnd
      split at h
      · cases h
      · split at h
        · cases h
          refine ⟨[high, low], rfl, fun ch hch => ?_⟩
          rcases mem_pair.mp hch with rfl | rfl
          · exact toDigit_word hfst
          · exact toDigit_word hsnd
        · cases h
    · cases h
  · cases h

theorem decodeUnicode_ok {value digits : Nat} {result : Char}
    (h : decodeUnicode value digits text = .ok (result, rest)) :
    ∃ inside, text = inside ++ '}' :: rest ∧ ∀ ch ∈ inside, wordCharacter ch = true := by
  induction text generalizing value digits with
  | nil => cases h
  | cons ch text ih =>
    unfold decodeUnicode at h
    split at h
    · rename_i rest' heq
      cases heq
      split at h
      · split at h
        · cases h
          exact ⟨[], rfl, nofun⟩
        · cases h
      · cases h
    · rename_i rest' heq
      cases heq
      split at h
      · obtain ⟨inside, rfl, hinsd⟩ := ih h
        exact ⟨'_' :: inside, rfl, forall_mem_cons.mpr ⟨rfl, hinsd⟩⟩
      · cases h
    · rename_i ch' rest' _ _ heq
      cases heq
      split at h
      · rename_i digit hdig
        split at h
        · obtain ⟨inside, rfl, hinsd⟩ := ih h
          exact ⟨ch :: inside, rfl, forall_mem_cons.mpr ⟨toDigit_word hdig, hinsd⟩⟩
        · cases h
      · cases h
    · rename_i heq
      cases heq

/-- An escape, behind its backslash: one character and perhaps digits, or digits in braces. -/
inductive Escape : List Char → Prop
  | simple {ch : Char} {digits : List Char} : ch ≠ 'u' → ch ≠ '\r' → ch ≠ '\n' →
      (∀ digit ∈ digits, wordCharacter digit = true) → Escape (ch :: digits)
  | unicode {digits : List Char} : (∀ digit ∈ digits, wordCharacter digit = true) →
      Escape ('u' :: '{' :: (digits ++ ['}']))

theorem decodeEscape_ok
    (h : decodeEscape byte text = .ok (value, rest)) : ∃ escape, text = escape ++ rest ∧ Escape escape := by
  unfold decodeEscape at h
  split at h
  case h_8 rest' =>
    obtain ⟨digits, rfl, hdigs⟩ := decodeHex_ok h
    exact ⟨'x' :: digits, rfl, .simple (by decide) (by decide) (by decide) hdigs⟩
  case h_9 rest' =>
    split at h
    · cases h
    · split at h
      · obtain ⟨digits, rfl, hdigs⟩ := decodeUnicode_ok h
        exact ⟨'u' :: '{' :: (digits ++ ['}']), by simp, .unicode hdigs⟩
      · cases h
  case h_10 => cases h
  all_goals
    cases h
    exact ⟨[_], rfl, .simple (by decide) (by decide) (by decide) nofun⟩

/-! ## Cooked strings -/

/-- A character that stands for itself; in a byte string braces do. -/
def Direct (byte : Bool) (ch : Char) : Prop :=
  ch ≠ '"' ∧ ch ≠ '\\' ∧ (byte = false → ch ≠ '{' ∧ ch ≠ '}')

/-- The content of a cooked string, part by part. -/
inductive Cooked (byte : Bool) : List Char → Prop
  | nil : Cooked byte []
  | direct {ch : Char} {rest : List Char} : Direct byte ch → Cooked byte rest → Cooked byte (ch :: rest)
  | braces {ch : Char} {rest : List Char} : ch = '{' ∨ ch = '}' → Cooked byte rest → Cooked byte (ch :: ch :: rest)
  | escape {escape rest : List Char} : Escape escape → Cooked byte rest → Cooked byte ('\\' :: (escape ++ rest))
  | continued {ch : Char} {rest : List Char} : ch = '\r' ∨ ch = '\n' → Cooked byte rest →
      Cooked byte ('\\' :: ch :: rest)

theorem direct_of_word (h : wordCharacter ch = true) : Direct byte ch :=
  ⟨ne_of_word h rfl, ne_of_word h rfl, fun _ => ⟨ne_of_word h rfl, ne_of_word h rfl⟩⟩

theorem Cooked.append (htext : ∀ ch ∈ text, Direct byte ch)
    (h : Cooked byte rest) : Cooked byte (text ++ rest) := by
  induction text with
  | nil => exact h
  | cons ch text ih =>
    obtain ⟨hch, htext⟩ := forall_mem_cons.mp htext
    exact .direct hch (ih htext)

/-- The blanks behind a continued line stand for nothing, but they are no quotes. -/
theorem dropContinued_direct (byte : Bool) (text : List Char) :
    ∃ blanks, text = blanks ++ dropContinued text ∧ ∀ ch ∈ blanks, Direct byte ch := by
  induction text with
  | nil => exact ⟨[], rfl, nofun⟩
  | cons ch text ih =>
    unfold dropContinued
    split
    · rename_i hblank
      obtain ⟨blanks, htext, hblanks⟩ := ih
      refine ⟨ch :: blanks, congrArg _ htext, forall_mem_cons.mpr ⟨?_, hblanks⟩⟩
      rcases hblank with rfl | rfl | rfl | rfl <;> simp [Direct]
    · exact ⟨[], rfl, nofun⟩

/-- A line continued behind its break. -/
theorem cooked_continued {rest : List Char} (h : Cooked byte (dropContinued rest)) : Cooked byte rest := by
  obtain ⟨blanks, hrest, hblanks⟩ := dropContinued_direct byte rest
  rw [hrest]
  exact h.append hblanks

theorem dropContinued_length (text : List Char) : (dropContinued text).length ≤ text.length := by
  obtain ⟨blanks, htext, -⟩ := dropContinued_direct true text
  have hlen := congrArg List.length htext
  rw [length_append] at hlen
  omega

theorem decodeStringCharacters_cooked (bound : Nat) : ∀ {content value : List Char},
    decodeStringCharacters true byte bound content = .ok value → content.length ≤ bound → Cooked byte content := by
  induction bound with
  | zero =>
    intro content value _ hbnd
    obtain rfl := length_eq_zero_iff.mp (Nat.le_zero.mp hbnd)
    exact .nil
  | succ bound ih =>
    intro content value h hbnd
    cases content with
    | nil => exact .nil
    | cons ch rest =>
      rw [length_cons] at hbnd
      unfold decodeStringCharacters at h
      split at h
      · cases h
      split at h
      · rename_i hreturn
        subst hreturn
        split at h
        · rename_i rest'
          obtain ⟨value', hvalue, -⟩ := bind_ok.mp h
          rw [length_cons] at hbnd
          exact .direct (by simp [Direct]) (.direct (by simp [Direct]) (ih hvalue (by omega)))
        · cases h
      split at h
      · rename_i hesc
        obtain ⟨rfl, -⟩ := hesc
        split at h
        · cases h
        · rename_i rest'
          have hlen := dropContinued_length rest'
          rw [length_cons] at hbnd
          exact .continued (.inr rfl) (cooked_continued (ih h (by omega)))
        · rename_i rest'
          split at h
          · rename_i rest''
            have hlen := dropContinued_length rest''
            rw [length_cons, length_cons] at hbnd
            refine .continued (.inl rfl) (.direct (by simp [Direct]) ?_)
            exact cooked_continued (ih h (by omega))
          · cases h
        · rename_i next rest' _ _
          obtain ⟨⟨decoded, rest''⟩, hdecd, h⟩ := bind_ok.mp h
          obtain ⟨value', hvalue, -⟩ := bind_ok.mp h
          obtain ⟨escape, hrest, hesc⟩ := decodeEscape_ok hdecd
          have hlen := congrArg List.length hrest
          rw [length_append] at hlen
          rw [hrest]
          exact .escape hesc (ih hvalue (by omega))
      split at h
      · rename_i hbrace
        split at h
        · rename_i next rest'
          split at h
          · rename_i heq
            subst heq
            obtain ⟨value', hvalue, -⟩ := bind_ok.mp h
            rw [length_cons] at hbnd
            exact .braces hbrace.1 (ih hvalue (by omega))
          · cases h
        · cases h
      split at h
      · cases h
      · rename_i hesc hbrace hquo
        obtain ⟨value', hvalue, -⟩ := bind_ok.mp h
        refine .direct ⟨fun hch => hquo ⟨hch, rfl⟩, fun hch => hesc ⟨hch, rfl⟩, fun hbyte => ?_⟩
          (ih hvalue (by omega))
        exact not_or.mp fun hch => hbrace ⟨hch, rfl, by simp [hbyte]⟩

theorem isOk_iff {α : Type} {result : Except String α} : isOk result = true ↔ ∃ value, result = .ok value := by
  cases result with
  | ok value => exact ⟨fun _ => ⟨value, rfl⟩, fun _ => rfl⟩
  | error e => exact ⟨nofun, nofun⟩

theorem decodeStringFragment_cooked {content : List Char} (h : isOk (decodeStringFragment content) = true) :
    Cooked false content := by
  obtain ⟨value, hvalue⟩ := isOk_iff.mp h
  exact decodeStringCharacters_cooked _ hvalue (Nat.le_refl _)

/-! ## Delimiters -/

namespace StringDelimiter

/-- The opening delimiter. -/
def opener : StringDelimiter → List Char
  | .cooked => ['"']
  | .raw hashes => 'r' :: (List.replicate hashes '#' ++ ['"'])

/-- The closing delimiter. -/
def closer (delimiter : StringDelimiter) : List Char := '"' :: List.replicate delimiter.hashes '#'

theorem size_closer : size delimiter.closer = 1 + delimiter.hashes := by
  unfold closer
  rw [size_cons, size_replicate_hash]
  rfl

theorem size_opener_raw (hashes : Nat) : size (StringDelimiter.raw hashes).opener = hashes + 2 := by
  unfold opener
  rw [size_cons, size_append, size_replicate_hash]
  show 1 + (hashes + 1) = hashes + 2
  omega

variable {text : List Char}

theorem openingHashes_ok {hashes length : Nat} {delimiter : StringDelimiter}
    (h : openingHashes hashes text = .ok (some (delimiter, length))) (hhashes : hashes ≤ 255) :
    ∃ more right, text = List.replicate more '#' ++ '"' :: right ∧ delimiter = .raw (hashes + more) ∧
      length = hashes + more + 2 ∧ hashes + more ≤ 255 := by
  induction text generalizing hashes with
  | nil => cases h
  | cons ch text ih =>
    unfold openingHashes at h
    split at h
    · rename_i rest heq
      cases heq
      cases h
      exact ⟨0, text, rfl, rfl, rfl, hhashes⟩
    · rename_i rest heq
      cases heq
      split at h
      · cases h
      · obtain ⟨more, right, rfl, rfl, rfl, hmore⟩ := ih h (by omega)
        exact ⟨more + 1, right, rfl, by rw [Nat.add_right_comm]; rfl, by omega, by omega⟩
    · cases h

theorem openingHashes_replicate (more : Nat) (right : List Char) : ∀ hashes, hashes + more ≤ 255 →
    openingHashes hashes (List.replicate more '#' ++ '"' :: right) =
      .ok (some (.raw (hashes + more), hashes + more + 2)) := by
  induction more with
  | zero => exact fun hashes _ => rfl
  | succ more ih =>
    intro hashes hle
    rw [replicate_succ, cons_append]
    show (if hashes = 255 then _ else openingHashes (hashes + 1) _) = _
    rw [if_neg (by omega), ih (hashes + 1) (by omega), Nat.add_right_comm]
    rfl

/-- What is at the start of a text that a delimiter opens. -/
theorem opening_iff {delimiter : StringDelimiter} {length : Nat} :
    opening text = .ok (some (delimiter, length)) ↔
      ∃ right, text = delimiter.opener ++ right ∧ length = size delimiter.opener ∧ delimiter.hashes ≤ 255 := by
  constructor
  · intro h
    unfold opening at h
    split at h
    · rename_i rest
      cases h
      exact ⟨rest, rfl, rfl, Nat.zero_le _⟩
    · rename_i rest
      split at h
      · obtain ⟨more, right, rfl, rfl, rfl, hmore⟩ := openingHashes_ok h (Nat.zero_le _)
        rw [Nat.zero_add] at hmore ⊢
        exact ⟨right, by simp [opener], (size_opener_raw more).symm, hmore⟩
      · cases h
    · cases h
  · rintro ⟨right, rfl, rfl, hhashes⟩
    cases delimiter with
    | cooked => rfl
    | raw hashes =>
      rw [size_opener_raw]
      have hopening := openingHashes_replicate hashes right 0 (by rwa [Nat.zero_add])
      rw [Nat.zero_add] at hopening
      show (if _ then openingHashes 0 (List.replicate hashes '#' ++ ['"'] ++ right) else _) = _
      rw [append_assoc, singleton_append, hopening, if_pos]
      cases hashes <;> rfl

theorem closingLen_closer (right : List Char) :
    delimiter.closingLen (delimiter.closer ++ right) = some (1 + delimiter.hashes) := by
  have htake : (List.replicate delimiter.hashes '#' ++ right).take delimiter.hashes =
      List.replicate delimiter.hashes '#' := by
    rw [take_append_of_le_length (by simp), take_of_length_le (by simp)]
  exact if_pos htake

end StringDelimiter

/-- The content of a string stands between its delimiters. -/
theorem stringContent_iff {text content : List Char} {delimiter : StringDelimiter} :
    stringContent text = .ok (delimiter, content) ↔
      text = delimiter.opener ++ (content ++ delimiter.closer) ∧ delimiter.hashes ≤ 255 := by
  constructor
  · intro h
    obtain ⟨opened, hopn, h⟩ := bind_ok.mp h
    split at h
    · cases h
    · rename_i delimiter' opening
      dsimp only at h
      split at h
      · cases h
      rename_i hlen
      split at h
      · cases h
      rename_i hclosing
      split at h
      · cases h
      rename_i content' hslc
      cases h
      obtain ⟨right, htext, hopening, hhashes⟩ := StringDelimiter.opening_iff.mp hopn
      obtain ⟨suffix, hdrop, hclos⟩ := bind_eq_some_iff.mp (not_not.mp hclosing)
      obtain ⟨left, hleft, hsizeLeft⟩ := dropBytes_some hdrop
      obtain ⟨extra, rfl, -⟩ := closingLen_some hclos
      obtain ⟨left', right', hpts, hsize, hstop⟩ := slice_some hslc
      have hcloser := delimiter.size_closer
      have htot : size text = size left + (size delimiter.closer + size extra) := by
        rw [hleft, ← size_append, ← size_append]
        rfl
      obtain rfl : extra = [] := by
        by_contra hne
        have := size_pos hne
        omega
      obtain ⟨rfl, -⟩ := append_inj_size (hpts.symm.trans htext) (hsize.trans hopening)
      rw [← append_assoc] at hpts
      obtain ⟨hcont, hrt⟩ := append_inj_size (hpts.symm.trans hleft) (by rw [size_append]; omega)
      refine ⟨?_, hhashes⟩
      rw [hpts, hrt, append_assoc, append_nil]
      rfl
  · rintro ⟨rfl, hhashes⟩
    have hcloser := delimiter.size_closer
    have hopn := StringDelimiter.opening_iff.mpr ⟨content ++ delimiter.closer, rfl, rfl, hhashes⟩
    have hstop : size (delimiter.opener ++ (content ++ delimiter.closer)) - (1 + delimiter.hashes) =
        size (delimiter.opener ++ content) := by
      rw [← append_assoc, size_append _ delimiter.closer]
      omega
    have hdrop : dropBytes (delimiter.opener ++ (content ++ delimiter.closer)) (size (delimiter.opener ++ content)) =
        some delimiter.closer := by
      rw [← append_assoc]
      exact dropBytes_size _ _
    have hclosing := delimiter.closingLen_closer []
    rw [append_nil] at hclosing
    have hslc := slice_part delimiter.opener content delimiter.closer
    rw [← size_append] at hslc
    refine bind_ok.mpr ⟨_, hopn, ?_⟩
    dsimp only
    rw [hstop, hdrop, bind_some, hclosing, hslc, if_neg, if_neg (not_not.mpr rfl)]
    rw [← append_assoc, size_append _ delimiter.closer, size_append]
    omega

/-! ## Characters -/

theorem stripStart_some {start text right : List Char} (h : stripStart start text = some right) :
    text = start ++ right := by
  unfold stripStart at h
  split at h
  · rename_i hst
    obtain ⟨rest, rfl⟩ := isPrefixOf_iff_prefix.mp hst
    cases h
    rw [drop_left]
  · cases h

/-- Between the quotes: one character, or an escape. -/
inductive Quoted : List Char → Prop
  | direct {ch : Char} : ch ≠ '\\' → ch ≠ '\'' → ch ≠ '\r' → ch ≠ '\n' → Quoted [ch]
  | escape {escape : List Char} : Escape escape → Quoted ('\\' :: escape)

theorem decodeCharacter_quoted {text : List Char} (h : isOk (decodeCharacter byte text) = true) :
    ∃ content, text = '\'' :: (content ++ ['\'']) ∧ Quoted content := by
  obtain ⟨value, h⟩ := isOk_iff.mp h
  unfold decodeCharacter at h
  split at h
  · cases h
  rename_i content hcont
  obtain ⟨inner, hinn, hstrip⟩ := bind_eq_some_iff.mp hcont
  obtain rfl := stripEnd_some hstrip
  refine ⟨content, stripStart_some hinn, ?_⟩
  dsimp only at h
  split at h
  · obtain ⟨⟨value', rest'⟩, hdecd, h⟩ := bind_ok.mp h
    split at h
    · cases h
    rename_i hrest
    obtain rfl : rest' = [] := not_not.mp hrest
    obtain ⟨escape, rfl, hesc⟩ := decodeEscape_ok hdecd
    rw [append_nil]
    exact .escape hesc
  · cases h
  · rename_i ch rest hnot
    split at h
    · cases h
    rename_i hblank
    split at h
    · cases h
    rename_i hquo
    split at h
    · cases h
    rw [ok_bind] at h
    split at h
    · cases h
    rename_i hrest
    obtain rfl : rest = [] := not_not.mp hrest
    exact .direct (fun heq => hnot heq) hquo (fun heq => hblank (.inr (.inl heq)))
      fun heq => hblank (.inr (.inr heq))

/-! ## Numbers -/

/-- A suffix is cut off whole, or nothing is. -/
theorem numericLiteralParts_spec (text : List Char) :
    numericLiteralParts text = (text, none) ∨ ∃ digits, ∃ stop ∈ typeSuffixes,
      numericLiteralParts text = (digits, some stop) ∧ text = digits ++ stop := by
  unfold numericLiteralParts
  dsimp only
  cases hfnd : typeSuffixes.findSome? fun stop =>
      if stop.head? = some 'f' && nonDecimal text then none
      else (stripEnd stop text).map fun digits => (digits, some stop) with
  | none => exact .inl rfl
  | some parts =>
    obtain ⟨stop, hstop, hpts⟩ := exists_of_findSome?_eq_some hfnd
    split at hpts
    · cases hpts
    · obtain ⟨digits, hstrip, rfl⟩ := map_eq_some_iff.mp hpts
      exact .inr ⟨digits, stop, hstop, rfl, stripEnd_some hstrip⟩

/-- The base of a number, and its digits. -/
theorem integerDigits_ok {text digits : List Char} (h : integerDigits text = .ok (radix, digits)) :
    (∀ stop, (numericLiteralParts text).2 = some stop → stop.head? ≠ some 'f') ∧
    (∀ ch ∈ digits, ch = '_' ∨ isDigit radix ch = true) ∧
    ∃ base, (numericLiteralParts text).1 = base ++ digits ∧
      (base = [] ∧ radix = 10 ∨ base ∈ [['0', 'b'], ['0', 'o'], ['0', 'x']]) := by
  unfold integerDigits at h
  generalize numericLiteralParts text = parts at h ⊢
  obtain ⟨left, suffix⟩ := parts
  dsimp only at h ⊢
  split at h
  · cases h
  rename_i hsuf
  refine ⟨fun stop hstop hflt => hsuf (by rw [hstop]; simp [hflt]), ?_⟩
  have hchk : ∀ {parts : Nat × List Char}, (if !parts.2.any (isDigit parts.1) then
        Except.error "invalid integer literal"
      else if !parts.2.all (fun ch => ch = '_' || isDigit parts.1 ch) then Except.error "invalid integer literal"
      else Except.ok (parts.1, parts.2)) = Except.ok (radix, digits) →
      parts = (radix, digits) ∧ ∀ ch ∈ digits, ch = '_' ∨ isDigit radix ch = true := by
    intro parts h
    split at h
    · cases h
    split at h
    · cases h
    rename_i hall
    cases h
    refine ⟨rfl, fun ch hch => ?_⟩
    have hch := all_eq_true.mp (by simpa only [Bool.not_eq_true', Bool.not_eq_false] using hall) ch hch
    simpa only [Bool.or_eq_true, decide_eq_true_eq] using hch
  split at h
  · rename_i rest hrest
    obtain ⟨heq, hall⟩ := hchk h
    cases heq
    exact ⟨hall, ['0', 'b'], stripStart_some hrest, .inr (by simp)⟩
  split at h
  · rename_i rest hrest
    obtain ⟨heq, hall⟩ := hchk h
    cases heq
    exact ⟨hall, ['0', 'o'], stripStart_some hrest, .inr (by simp)⟩
  obtain ⟨heq, hall⟩ := hchk h
  refine ⟨hall, ?_⟩
  split at heq
  · rename_i rest hrest
    cases heq
    exact ⟨['0', 'x'], stripStart_some hrest, .inr (by simp)⟩
  · cases heq
    exact ⟨[], rfl, .inl ⟨rfl, rfl⟩⟩

theorem isDigit_word (h : isDigit radix ch = true) : wordCharacter ch = true := by
  obtain ⟨digit, hdig⟩ := isSome_iff_exists.mp h
  exact toDigit_word hdig

/-- A decimal digit. -/
theorem isDigit_ten (h : isDigit 10 ch = true) : isAsciiDigit ch = true := by
  obtain ⟨digit, hdig⟩ := isSome_iff_exists.mp h
  unfold toDigit at hdig
  obtain ⟨hvalue, hlt⟩ := filter_eq_some_iff.mp hdig
  have hlt : digit < 10 := of_decide_eq_true hlt
  split at hvalue
  · assumption
  · split at hvalue
    · have := some.inj hvalue
      omega
    · split at hvalue
      · have := some.inj hvalue
        omega
      · cases hvalue

theorem word_of_digitOrLine (h : digitOrLine ch = true) : wordCharacter ch = true := by
  unfold digitOrLine at h
  unfold wordCharacter isAsciiAlphanumeric
  simp only [Bool.or_eq_true] at h ⊢
  exact h.imp .inr id

theorem typeSuffixes_word : ∀ stop ∈ typeSuffixes, ∀ ch ∈ stop, wordCharacter ch = true := by
  have hall : typeSuffixes.all (·.all wordCharacter) = true := by decide
  intro stop hstop
  exact all_eq_true.mp (all_eq_true.mp hall stop hstop)

theorem typeSuffixes_head : ∀ stop ∈ typeSuffixes, stop.head? = some 'i' ∨ stop.head? = some 'u' ∨
    stop.head? = some 'f' := by
  decide

theorem bases_word : ∀ base ∈ [['0', 'b'], ['0', 'o'], ['0', 'x']], ∀ ch ∈ base, wordCharacter ch = true := by
  have hall : [['0', 'b'], ['0', 'o'], ['0', 'x']].all (·.all wordCharacter) = true := by decide
  intro base hbase
  exact all_eq_true.mp (all_eq_true.mp hall base hbase)

/-- An integer: digits, and perhaps a type that is no floating-point one. Without a base the digits are
decimal. -/
theorem isIntegerLiteral_spec {text : List Char} (h : isIntegerLiteral text = true) :
    ∃ digits suffix, text = digits ++ suffix ∧ (∀ ch ∈ text, wordCharacter ch = true) ∧
      (nonDecimal text = false → ∀ ch ∈ digits, digitOrLine ch = true) ∧
      (suffix = [] ∨ suffix.head? = some 'i' ∨ suffix.head? = some 'u') ∧
      ∀ stop, (numericLiteralParts text).2 = some stop → stop.head? ≠ some 'f' := by
  unfold isIntegerLiteral at h
  split at h
  · rename_i parts hdigits
    obtain ⟨radix, digits⟩ := parts
    obtain ⟨hflt, hall, base, hbase, hradix⟩ := integerDigits_ok hdigits
    have hleft : ∀ ch ∈ base ++ digits, wordCharacter ch = true := by
      intro ch hch
      rcases mem_append.mp hch with hch | hch
      · rcases hradix with ⟨rfl, -⟩ | hbased
        · cases hch
        · exact bases_word base hbased ch hch
      · rcases hall ch hch with rfl | hdig
        · rfl
        · exact isDigit_word hdig
    have hdec : ∀ suffix, text = base ++ digits ++ suffix → nonDecimal text = false →
        ∀ ch ∈ base ++ digits, digitOrLine ch = true := by
      intro suffix htext hnot ch hch
      rcases hradix with ⟨rfl, rfl⟩ | hbased
      · unfold digitOrLine
        rcases hall ch hch with rfl | hdig
        · rfl
        · simp [isDigit_ten hdig]
      · exfalso
        revert hnot
        rw [htext]
        simp only [mem_cons, not_mem_nil, or_false] at hbased
        rcases hbased with rfl | rfl | rfl <;> simp [nonDecimal]
    rcases numericLiteralParts_spec text with hpts | ⟨digits', stop, hstop, hpts, htext⟩
    · rw [hpts] at hbase
      obtain rfl : text = base ++ digits := hbase
      exact ⟨base ++ digits, [], by simp, hleft, hdec [] (by simp), .inl rfl, hflt⟩
    · rw [hpts] at hbase
      obtain rfl : digits' = base ++ digits := hbase
      have hnotFloat := hflt stop (by rw [hpts])
      refine ⟨base ++ digits, stop, htext, fun ch hch => ?_, hdec stop htext, .inr ?_, hflt⟩
      · rw [htext] at hch
        exact (mem_append.mp hch).elim (hleft ch) (typeSuffixes_word stop hstop ch)
      · rcases typeSuffixes_head stop hstop with hi | hu | hf
        · exact .inl hi
        · exact .inr hu
        · exact absurd hf hnotFloat
  · cases h

/-- A number fails to parse for its size only. -/
theorem parseIntegerLiteral_range {text : List Char} {e : String} (h : isIntegerLiteral text = true)
    (hparse : parseIntegerLiteral text = .error e) : e = "integer literal is outside the u64 range" := by
  unfold isIntegerLiteral at h
  unfold parseIntegerLiteral at hparse
  split at h
  · rename_i parts hdigs
    rw [hdigs, ok_bind] at hparse
    dsimp only at hparse
    split at hparse
    · cases hparse
    · exact (Except.error.inj hparse).symm
  · cases h

end Kagari.Syntax
