import Kagari.Syntax.Covering

/-!
# The tokens of strings

Every scanner of `Strings` covers what it consumes, and ends within its bound.
-/

namespace Kagari.Syntax

open Lib.Text List

variable {input text rest done pending : List Char} {cursor : Cursor} {start offset : Nat}

/-! ## Escapes and text -/

theorem skipBraced_moved (text : List Char) (offset : Nat) :
    ∃ consumed, Moved ⟨offset, text⟩ (skipBraced offset text) consumed := by
  induction text generalizing offset with
  | nil => exact ⟨[], .refl _⟩
  | cons ch text ih =>
    rw [skipBraced]
    split
    · exact ⟨[], .refl _⟩
    · split
      · rename_i hbrace
        subst hbrace
        exact ⟨['}'], moved_one offset '}' text⟩
      · obtain ⟨consumed, hmov⟩ := ih (offset + ch.utf8Size)
        exact ⟨ch :: consumed, (moved_one offset ch text).trans hmov⟩

theorem skipEscape_moved (cursor : Cursor) : ∃ consumed, Moved cursor (skipEscape cursor) consumed := by
  unfold skipEscape
  split
  · exact ⟨[], .refl _⟩
  · rename_i offset rest
    obtain ⟨consumed, hmov⟩ := skipBraced_moved rest (offset + 2)
    have htwo : Moved ⟨offset, 'u' :: '{' :: rest⟩ ⟨offset + 2, rest⟩ ['u', '{'] := ⟨rfl, rfl⟩
    exact ⟨_, htwo.trans hmov⟩
  · rename_i offset ch rest hnot
    exact ⟨[ch], moved_one offset ch rest⟩

/-- The text since an offset, if there is any, is one token. -/
theorem pushText_covers (h : Within input ⟨start, text⟩) (hmov : Moved ⟨start, text⟩ cursor pending) :
    ∃ tokens, pushText input start cursor.offset = some tokens ∧ Covers start pending tokens := by
  unfold pushText
  by_cases hpend : pending = []
  · subst hpend
    rw [if_pos (by rw [hmov.offset]; rfl)]
    exact ⟨[], rfl, rfl⟩
  · have hpos := size_pos hpend
    have hoff : cursor.offset = start + size pending := hmov.offset
    rw [if_neg (by omega), show slice input start cursor.offset = some pending from h.slice hmov]
    exact ⟨_, rfl, covers_one hpend hoff⟩

/-! ## Holes -/

theorem stripEnd_some {stop text left : List Char} (h : stripEnd stop text = some left) :
    text = left ++ stop := by
  unfold stripEnd at h
  split at h
  · rename_i hsuf
    obtain ⟨before, rfl⟩ := isSuffixOf_iff_suffix.mp hsuf
    cases h
    rw [length_append, Nat.add_sub_cancel, take_left]
  · cases h

theorem isHoleName_nonempty {name : List Char} (h : isHoleName name = true) : name ≠ [] := by
  rintro rfl
  cases h

theorem holeTokens_covers (content : List Char) (start : Nat) :
    Covers start content (holeTokens content start (start + size content)) := by
  unfold holeTokens
  cases hstrip : stripEnd [':', '?'] content with
  | none =>
    dsimp only
    split
    · rename_i hname
      exact covers_one (isHoleName_nonempty hname) rfl
    · split
      · rename_i hne
        exact covers_one (by rintro rfl; exact hne rfl) rfl
      · rename_i heq
        by_contra hcont
        have := size_pos hcont
        omega
  | some name =>
    obtain rfl := stripEnd_some hstrip
    have hsize : size (name ++ [':', '?']) = size name + 2 := by rw [size_append]; rfl
    dsimp only
    split
    · rename_i hname
      rw [if_pos rfl, hsize]
      refine ⟨name, [':', '?'], isHoleName_nonempty hname, rfl, rfl, rfl, [':'], ['?'], by simp, rfl, ?_, ?_,
        ['?'], [], by simp, rfl, ?_, ?_, rfl⟩
      · show start + (size name + 2) - 2 = _
        omega
      · show start + (size name + 2) - 1 = start + size name + 1
        omega
      · show start + (size name + 2) - 1 = start + size name + 1
        omega
      · show start + (size name + 2) = start + size name + 1 + 1
        omega
    · rw [if_pos (by rw [hsize]; omega)]
      exact covers_one (by simp) rfl

theorem scanHole_covers (h : Within input ⟨start, rest⟩) :
    ∃ scan consumed, scanHole input start ⟨start, rest⟩ = some scan ∧
      Moved ⟨start, rest⟩ scan.2 consumed ∧ Covers start consumed scan.1 := by
  unfold scanHole
  obtain ⟨content, hmov, -, -⟩ :=
    @scanWhile_end (fun ch => !(ch = '}' || ch = '"')) behind (fun _ _ _ => rfl) rest start
  dsimp only
  generalize (scanWhile (fun ch => !(ch = '}' || ch = '"')) behind start start rest).2 = cursor at hmov
  have hwith := h.moved hmov
  have hoff : cursor.offset = start + size content := hmov.offset
  have hcovs := holeTokens_covers content start
  rw [← hoff] at hcovs
  rw [hwith.position, show slice input start cursor.offset = some content from h.slice hmov,
    Option.map_some]
  split
  · rename_i after haft
    have hclose : Moved cursor ⟨cursor.offset + 1, after⟩ ['}'] := ⟨haft, rfl⟩
    refine ⟨_, content ++ ['}'], rfl, hmov.trans hclose, hcovs.append ?_⟩
    rw [← hoff]
    exact covers_one (cons_ne_nil _ _) rfl
  · exact ⟨_, content, rfl, hmov, hcovs⟩

/-! ## Cooked strings -/

/-- The tokens cover the text since the last token, and what is consumed. -/
theorem scanFormat_covers (bound : Nat) : ∀ {cursor : Cursor} {pending text : List Char} {start : Nat},
    Within input ⟨start, text⟩ → Moved ⟨start, text⟩ cursor pending → cursor.rest.length ≤ bound →
    ∃ scan consumed, scanFormat input bound start cursor = some scan ∧
      Moved cursor scan.cursor consumed ∧ Covers start (pending ++ consumed) scan.tokens ∧
      scan.stop = scan.cursor.offset := by
  have hended : ∀ {bound offset start : Nat} {pending text : List Char}, Within input ⟨start, text⟩ →
      Moved ⟨start, text⟩ ⟨offset, []⟩ pending →
      ∃ scan consumed, scanFormat input bound start ⟨offset, []⟩ = some scan ∧
        Moved ⟨offset, []⟩ scan.cursor consumed ∧ Covers start (pending ++ consumed) scan.tokens ∧
        scan.stop = scan.cursor.offset := by
    intro bound offset start pending text hwith hmov
    have hposition : size input = offset := (hwith.moved hmov).position
    obtain ⟨tokens, htoks, hcovs⟩ := pushText_covers hwith hmov
    unfold scanFormat
    rw [hposition, show pushText input start offset = some tokens from htoks]
    refine ⟨_, [], rfl, .refl _, ?_, rfl⟩
    rwa [append_nil]
  induction bound with
  | zero =>
    rintro ⟨offset, rest⟩ pending text start hwith hmov hbnd
    obtain rfl : rest = [] := length_eq_zero_iff.mp (Nat.le_zero.mp hbnd)
    exact hended hwith hmov
  | succ bound ih =>
    rintro ⟨index, rest⟩ pending text start hwith hmov hbnd
    cases rest with
    | nil => exact hended hwith hmov
    | cons ch rest =>
      -- the loop goes on from a later cursor, with more text pending
      have hgo : ∀ {cursor : Cursor} {first more : List Char}, first ≠ [] →
          Moved ⟨index, ch :: rest⟩ cursor (first ++ more) →
          ∃ scan consumed, scanFormat input bound start cursor = some scan ∧
            Moved ⟨index, ch :: rest⟩ scan.cursor consumed ∧
            Covers start (pending ++ consumed) scan.tokens ∧ scan.stop = scan.cursor.offset := by
        intro cursor first more hfst hstep
        have hlen := hstep.length
        have hpos := length_pos_of_ne_nil hfst
        rw [length_append] at hlen
        change (ch :: rest).length ≤ bound + 1 at hbnd
        obtain ⟨scan, consumed, hscan, hscanned, hcovs, hstop⟩ :=
          ih hwith (hmov.trans hstep) (by
            change (ch :: rest).length = _ at hlen
            omega)
        refine ⟨scan, _, hscan, hstep.trans hscanned, ?_, hstop⟩
        rwa [← append_assoc]
      have hone := moved_one index ch rest
      unfold scanFormat
      by_cases hquo : ch = '"'
      · subst hquo
        obtain ⟨tokens, htoks, hcovs⟩ := pushText_covers hwith hmov
        rw [if_pos rfl, show pushText input start index = some tokens from htoks]
        refine ⟨_, ['"'], rfl, hone, hcovs.append ?_, rfl⟩
        have hidx : index = start + size pending := hmov.offset
        rw [← hidx]
        exact covers_one (cons_ne_nil _ _) rfl
      rw [if_neg hquo]
      by_cases hesc : ch = '\\'
      · subst hesc
        obtain ⟨consumed, hskip⟩ := skipEscape_moved ⟨index + 1, rest⟩
        rw [if_pos rfl]
        exact hgo (cons_ne_nil _ _) (hone.trans hskip)
      rw [if_neg hesc]
      by_cases hdbl : (ch = '{' ∨ ch = '}') ∧ rest.head? = some ch
      · rw [if_pos hdbl]
        obtain ⟨hbrace, hnext⟩ := hdbl
        cases rest with
        | nil => cases hnext
        | cons next rest =>
          obtain rfl : next = ch := Option.some.inj hnext
          have hsize : next.utf8Size = 1 := by
            rcases hbrace with rfl | rfl <;> rfl
          refine @hgo ⟨index + 2, rest⟩ [next] [next] (cons_ne_nil _ _) ⟨rfl, ?_⟩
          show index + 2 = index + size [next, next]
          simp [hsize]
      rw [if_neg hdbl]
      by_cases hopen : ch = '{'
      · subst hopen
        have hone' : Moved ⟨index, '{' :: rest⟩ ⟨index + 1, rest⟩ ['{'] := hone
        have hbehind := (hwith.moved hmov).moved hone'
        obtain ⟨tokens, htoks, hcovs⟩ := pushText_covers hwith hmov
        obtain ⟨⟨hole, cursor⟩, inside, hscan, hinsd, hholeCovers⟩ := scanHole_covers hbehind
        change Moved ⟨index + 1, rest⟩ cursor inside at hinsd
        have hcrs := hbehind.moved hinsd
        have hlen := hinsd.length
        change rest.length = _ at hlen
        change rest.length + 1 ≤ bound + 1 at hbnd
        obtain ⟨scan, consumed, haft, hscanned, hafterCovers, hstop⟩ :=
          ih hcrs (.refl _) (by
            show cursor.rest.length ≤ bound
            omega)
        rw [if_pos rfl]
        dsimp only [Option.bind_eq_bind]
        rw [show pushText input start index = some tokens from htoks, Option.bind_some, hscan,
          Option.bind_some, hcrs.position, haft, Option.bind_some]
        refine ⟨_, '{' :: (inside ++ consumed), rfl, hone'.trans (hinsd.trans hscanned), ?_, hstop⟩
        have hidx : index = start + size pending := hmov.offset
        refine hcovs.append ?_
        rw [← hidx]
        refine ⟨['{'], inside ++ consumed, cons_ne_nil _ _, rfl, rfl, rfl, hholeCovers.append ?_⟩
        have hoff : cursor.offset = index + 1 + size inside := hinsd.offset
        rw [← hoff]
        exact hafterCovers
      rw [if_neg hopen]
      exact @hgo ⟨index + ch.utf8Size, rest⟩ [ch] [] (cons_ne_nil _ _) hone

theorem formatTokens_covers {scan : FormatScan} {opening text : List Char}
    (hopening : opening ≠ []) (hcovs : Covers (start + size opening) text scan.tokens)
    (hstop : scan.stop = start + size (opening ++ text)) :
    Covers start (opening ++ text) (formatTokens start (start + size opening) scan) := by
  unfold formatTokens
  split
  · exact ⟨opening, text, hopening, rfl, rfl, rfl, hcovs⟩
  · exact covers_one (by simp [hopening]) hstop

/-! ## Raw and byte strings -/

theorem size_replicate_hash (n : Nat) : size (List.replicate n '#') = n := by
  induction n with
  | zero => rfl
  | succ n ih =>
    rw [replicate_succ, size_cons, ih]
    exact Nat.add_comm 1 n

variable {delimiter : StringDelimiter} {length : Nat}

/-- A closing delimiter is at the start of the text. -/
theorem closingLen_some {text : List Char}
    (h : delimiter.closingLen text = some length) :
    ∃ right, text = '"' :: (List.replicate delimiter.hashes '#' ++ right) ∧ length = 1 + delimiter.hashes := by
  unfold StringDelimiter.closingLen at h
  split at h
  · rename_i rest
    split at h
    · rename_i hhashes
      refine ⟨rest.drop delimiter.hashes, ?_, (Option.some.inj h).symm⟩
      rw [← hhashes, take_append_drop]
    · cases h
  · cases h

theorem scanPlain_covers (delimiter : StringDelimiter) (byte : Bool)
    (hwith : Within input ⟨start, text⟩) (bound : Nat) :
    ∀ {cursor : Cursor} {done : List Char}, done ≠ [] → Moved ⟨start, text⟩ cursor done →
      cursor.rest.length ≤ bound →
      ∃ scan, scanPlain input start delimiter byte bound cursor = some scan ∧ Scanned start text scan := by
  have hended : ∀ {bound offset : Nat} {done : List Char}, done ≠ [] →
      Moved ⟨start, text⟩ ⟨offset, []⟩ done →
      ∃ scan, scanPlain input start delimiter byte bound ⟨offset, []⟩ = some scan ∧
        Scanned start text scan := by
    intro bound offset done hdone hmov
    unfold scanPlain
    exact ⟨_, rfl, scanned_one hdone hmov (hwith.moved hmov).position⟩
  induction bound with
  | zero =>
    rintro ⟨offset, rest⟩ done hdone hmov hbnd
    obtain rfl : rest = [] := length_eq_zero_iff.mp (Nat.le_zero.mp hbnd)
    exact hended hdone hmov
  | succ bound ih =>
    rintro ⟨index, rest⟩ done hdone hmov hbnd
    cases rest with
    | nil => exact hended hdone hmov
    | cons ch rest =>
      have hgo : ∀ {cursor : Cursor} {more : List Char},
          Moved ⟨index, ch :: rest⟩ cursor ([ch] ++ more) →
          ∃ scan, scanPlain input start delimiter byte bound cursor = some scan ∧
            Scanned start text scan := by
        intro cursor more hstep
        have hlen := hstep.length
        rw [length_append, length_singleton] at hlen
        change rest.length + 1 = _ at hlen
        change rest.length + 1 ≤ bound + 1 at hbnd
        exact ih (by simp [hdone]) (hmov.trans hstep) (by omega)
      have hone := moved_one index ch rest
      unfold scanPlain
      by_cases hesc : ch = '\\' ∧ delimiter = .cooked
      · rw [if_pos hesc]
        obtain ⟨rfl, -⟩ := hesc
        obtain ⟨consumed, hskip⟩ := skipEscape_moved ⟨index + 1, rest⟩
        exact hgo (hone.trans hskip)
      rw [if_neg hesc]
      by_cases hquo : ch = '"'
      · subst hquo
        rw [if_neg (not_not_intro rfl)]
        cases hclose : delimiter.closingLen ('"' :: rest) with
        | none => exact @hgo ⟨index + 1, rest⟩ [] hone
        | some length =>
          obtain ⟨right, hrest, rfl⟩ := closingLen_some hclose
          obtain ⟨-, rfl⟩ := cons.inj hrest
          dsimp only
          have hsize := size_replicate_hash delimiter.hashes
          have hadvance := advanceTo_spec (List.replicate delimiter.hashes '#') right (index + 1)
          rw [hsize, Nat.add_assoc] at hadvance
          have hclos : Moved ⟨start, text⟩ ⟨index + (1 + delimiter.hashes), right⟩
              (done ++ ('"' :: List.replicate delimiter.hashes '#')) := by
            refine hmov.trans ⟨rfl, ?_⟩
            show index + (1 + delimiter.hashes) = index + size _
            rw [size_cons, hsize]
            rfl
          rw [hadvance, show slice input start (index + (1 + delimiter.hashes)) = _ from
            hwith.slice hclos]
          exact ⟨_, rfl, scanned_one (by simp) hclos rfl⟩
      · rw [if_pos hquo]
        exact @hgo ⟨index + ch.utf8Size, rest⟩ [] hone

/-! ## Openings -/

theorem openingHashes_some {hashes length : Nat} {text : List Char}
    (h : StringDelimiter.openingHashes hashes text = .ok (some (delimiter, length))) :
    ∃ more right, text = List.replicate more '#' ++ '"' :: right ∧ length = hashes + more + 2 := by
  induction text generalizing hashes with
  | nil => cases h
  | cons ch text ih =>
    unfold StringDelimiter.openingHashes at h
    split at h
    · rename_i rest heq
      cases heq
      cases h
      exact ⟨0, text, rfl, rfl⟩
    · rename_i rest heq
      cases heq
      split at h
      · cases h
      · obtain ⟨more, right, rfl, rfl⟩ := ih h
        exact ⟨more + 1, right, rfl, by omega⟩
    · cases h

theorem opening_some {text : List Char}
    (h : StringDelimiter.opening text = .ok (some (delimiter, length))) :
    ∃ left right, text = left ++ right ∧ size left = length ∧ left ≠ [] := by
  unfold StringDelimiter.opening at h
  split at h
  · rename_i rest
    cases h
    exact ⟨['"'], rest, rfl, rfl, cons_ne_nil _ _⟩
  · rename_i rest
    split at h
    · obtain ⟨more, right, rfl, rfl⟩ := openingHashes_some h
      refine ⟨'r' :: (List.replicate more '#' ++ ['"']), right, by simp, ?_, cons_ne_nil _ _⟩
      rw [size_cons, size_append, size_replicate_hash]
      show 1 + (more + 1) = 0 + more + 2
      omega
    · cases h
  · cases h

theorem scanOpener_scanned {byte : Bool} {skipped : List Char} (h : Within input ⟨start, skipped ++ rest⟩)
    (hskipped : size skipped = if byte then 2 else 1)
    (hlen : skipped.length = if byte then 2 else 1) :
    Scanned start (skipped ++ rest) (scanOpener input start byte (skipped ++ rest)) := by
  have hskip : Moved ⟨start, skipped ++ rest⟩ ⟨start + size skipped, rest⟩ skipped := ⟨rfl, rfl⟩
  obtain ⟨hashes, hmov, -⟩ :=
    @scanWhile_spec (fun ch => ch = '#') behind 0 (fun _ _ _ => rfl) rest start (start + size skipped)
  have hdrop : (skipped ++ rest).drop (if byte then 2 else 1) = rest := by
    rw [← hlen, drop_left]
  unfold scanOpener
  dsimp only
  rw [hdrop, ← hskipped]
  refine scanned_one ?_ (hskip.trans hmov) (h.moved (hskip.trans hmov)).position
  rintro hnil
  obtain ⟨rfl, -⟩ := append_eq_nil_iff.mp hnil
  cases byte <;> cases hlen

/-- Behind a valid opening delimiter. -/
theorem scanOpened_scanned (byte : Bool) {before body : List Char} {delimiter : StringDelimiter}
    {length : Nat} (h : Within input ⟨start, before ++ body⟩)
    (hopening : StringDelimiter.opening body = .ok (some (delimiter, length))) :
    let opening := start + (length + size before)
    let cursor := advanceTo opening start (before ++ body)
    ∃ scan, (if byte = true ∨ delimiter ≠ .cooked then
        scanPlain input start delimiter byte cursor.rest.length cursor
      else
        (scanFormat input cursor.rest.length opening cursor).map fun scan =>
          (formatTokens start opening scan, scan.cursor)) = some scan ∧
      Scanned start (before ++ body) scan := by
  obtain ⟨left, right, rfl, rfl, hleft⟩ := opening_some hopening
  have hopn : Moved ⟨start, before ++ (left ++ right)⟩ ⟨start + size (before ++ left), right⟩
      (before ++ left) := ⟨(append_assoc _ _ _).symm, rfl⟩
  have hadvance := advanceTo_spec (before ++ left) right start
  have hsize : size left + size before = size (before ++ left) := by rw [size_append, Nat.add_comm]
  have hnonempty : before ++ left ≠ [] := by simp [hleft]
  intro opening cursor
  have hcrs : cursor = ⟨start + size (before ++ left), right⟩ := by
    unfold cursor opening
    rw [hsize, ← append_assoc, hadvance]
  rw [hcrs]
  unfold opening
  rw [hsize]
  split
  · exact scanPlain_covers delimiter byte h _ hnonempty hopn (Nat.le_refl _)
  · obtain ⟨scan, consumed, hscan, hmov, hcovs, hstop⟩ :=
      scanFormat_covers right.length (h.moved hopn) (.refl _) (Nat.le_refl _)
    have hall := hopn.trans hmov
    rw [hscan]
    refine ⟨_, rfl, before ++ left ++ consumed, by simp [hleft], hall, ?_⟩
    exact formatTokens_covers hnonempty hcovs (hstop.trans hall.offset)

/-- A string is covered from its first character on. -/
theorem scanString_scanned {ch : Char} (h : Within input ⟨start, ch :: rest⟩)
    (hopens : opensString ch rest = true) :
    ∃ scan, scanString input start (ch :: rest) = some scan ∧ Scanned start (ch :: rest) scan := by
  unfold scanString
  by_cases hbyte : ch = 'b'
  · subst hbyte
    show ∃ scan, scanDelimited input start true ('b' :: rest) = some scan ∧ _
    unfold scanDelimited
    dsimp only
    rw [if_pos rfl, drop_one, tail_cons]
    split
    · rename_i delimiter length hopening
      exact @scanOpened_scanned input start true ['b'] rest delimiter length h hopening
    · rename_i hinv
      cases rest with
      | nil => cases hopens
      | cons next rest =>
        obtain rfl : next = 'r' := by
          unfold opensString at hopens
          by_contra hne
          have hquo : next = '"' := by simpa [hne] using hopens
          subst hquo
          exact hinv _ _ rfl
        exact ⟨_, rfl, @scanOpener_scanned input rest start true ['b', 'r'] h rfl rfl⟩
  · have hnot : decide ((ch :: rest).head? = some 'b') = false :=
      decide_eq_false fun heq => hbyte (Option.some.inj heq)
    rw [hnot]
    unfold scanDelimited
    dsimp only
    rw [if_neg Bool.false_ne_true, drop_zero]
    split
    · rename_i delimiter length hopening
      exact @scanOpened_scanned input start false [] (ch :: rest) delimiter length h hopening
    · rename_i hinv
      have hsize : ch.utf8Size = 1 := by
        unfold opensString at hopens
        by_cases hquo : ch = '"'
        · rw [hquo]
          rfl
        · have hraw : ch = 'r' := by
            by_contra hne
            simp [hquo, hne, hbyte] at hopens
          rw [hraw]
          rfl
      refine ⟨_, rfl, @scanOpener_scanned input rest start false [ch] h ?_ rfl⟩
      simp [hsize]

end Kagari.Syntax
