import Kagari.Contract.Operations
import Kagari.Lib.Pieces
import Kagari.Lib.Tiling
import Kagari.Syntax.LexerSound

/-!
# Lexical sites

`kagari-syntax/src/lexical.rs`. The table of a parse keeps where each token starts. A site is a range of tokens; the
trivia between two significant tokens is split at a boundary, which is kept only where it is not the usual one.

The boundaries lie between the significant tokens around them, and the full spans of consecutive sites tile the source
(`lexical_tiles`).
-/

namespace Kagari.Syntax

open Lib.Text Lib.Pieces Lib.Tiling List Option

/-- `is_trivia`. -/
def TokenKind.isTrivia : TokenKind → Bool
  | .whitespace | .lineComment | .blockComment => true
  | _ => false

structure SyntaxSite where
  first : Nat
  stop : Nat

inductive Offsets where
  | narrow (starts : List (BitVec 16))
  | wide (starts : List (BitVec 32))

/-- `try_from`, to an unsigned number of `w` bits. -/
def narrowed (w n : Nat) : Option (BitVec w) := if n < 2 ^ w then some (BitVec.ofNat w n) else none

namespace Offsets

def get (offsets : Offsets) (index : Nat) : Option Nat :=
  match offsets with
  | .narrow starts => starts[index]?.map BitVec.toNat
  | .wide starts => starts[index]?.map BitVec.toNat

/-- The end of `new`; `none` where an `expect` fails. -/
def new (length : Nat) (starts : List Nat) : Option Offsets :=
  if length < 2 ^ 16 then (starts.mapM (narrowed 16)).map narrow else (starts.mapM (narrowed 32)).map wide

end Offsets

structure Lexical where
  starts : Offsets
  kinds : List TokenKind
  /-- The boundaries that are not the usual ones. -/
  boundaries : Nat → Option Nat
  length : Nat

namespace Lexical

/-- The bytes up to the end of the first line break of a text. -/
def lineBreak (spelling : List Char) : Option Nat :=
  (findChar (fun ch => ch = '\r' || ch = '\n') spelling).bind fun newline =>
    (dropBytes spelling newline).map fun rest =>
      match rest with
      | '\r' :: '\n' :: _ => newline + 2
      | _ => newline + 1

/-- The loop over the trivia before a token, which starts at `start`. -/
def gapBoundary (text : List Char) (start : Nat) : List Token → Option Nat
  | [] => some start
  | trivia :: rest =>
    (slice text trivia.start trivia.stop).bind fun spelling =>
      match lineBreak spelling with
      | some stop => some (if trivia.kind = .blockComment then trivia.stop else trivia.start + stop)
      | none => gapBoundary text start rest

/-- `default`: a token begins its site, and trivia ends the one before. -/
def usual (text : List Char) (tokens : List Token) (position : Nat) : Nat :=
  match tokens[position]? with
  | some token =>
    if token.kind.isTrivia then (tokens[position + 1]?.map Token.start).getD (size text) else token.start
  | none => size text

/-- The loop over the positions of a gap. -/
def place (text : List Char) (tokens : List Token) (boundary : Nat) (positions : List Nat)
    (boundaries : Nat → Option Nat) : Nat → Option Nat :=
  positions.foldl (fun boundaries position =>
    if usual text tokens position = boundary then boundaries
    else Function.update boundaries position (some boundary)) boundaries

/-- The first position behind the previous significant token. -/
def firstAfter (previous : Option Nat) : Nat := previous.elim 0 (· + 1)

/-- The loop over the tokens, from an index. -/
def splits (text : List Char) (tokens : List Token) :
    Nat → Option Nat → (Nat → Option Nat) → List Token → Option (Nat → Option Nat)
  | _, _, boundaries, [] => some boundaries
  | index, previous, boundaries, token :: rest =>
    if token.kind.isTrivia then splits text tokens (index + 1) previous boundaries rest
    else
      let first := firstAfter previous
      let boundary := if previous.isSome then gapBoundary text token.start ((tokens.take index).drop first) else some 0
      boundary.bind fun boundary =>
        splits text tokens (index + 1) (some index)
          (place text tokens boundary (List.range' first (index + 1 - first)) boundaries) rest

/-- `none` stands for a panic: the coordinates have 32 bits. No boundary is behind the length. -/
def new (text : List Char) (tokens : List Token) : Option Lexical :=
  if size text < 2 ^ 32 ∧ tokens.length < 2 ^ 32 then
    (splits text tokens 0 none (fun _ => none) tokens).bind fun boundaries =>
      (Offsets.new (size text) (tokens.map Token.start)).map fun starts =>
        ⟨starts, tokens.map Token.kind, boundaries, size text⟩
  else none

def kind (lexical : Lexical) (index : Nat) : TokenKind := lexical.kinds[index]?.getD .eof

def offset (lexical : Lexical) (index : Nat) : Nat := (lexical.starts.get index).getD lexical.length

def boundary (lexical : Lexical) (index : Nat) : Nat :=
  match lexical.boundaries index with
  | some offset => offset
  | none => if (lexical.kind index).isTrivia then lexical.offset (index + 1) else lexical.offset index

def span (lexical : Lexical) (index : Nat) : Span := ⟨lexical.offset index, lexical.offset (index + 1)⟩

def bodySpan (lexical : Lexical) (site : SyntaxSite) : Span := ⟨lexical.offset site.first, lexical.offset site.stop⟩

def fullSpan (lexical : Lexical) (site : SyntaxSite) : Span :=
  if site.first = site.stop then lexical.bodySpan site
  else ⟨lexical.boundary site.first, lexical.boundary site.stop⟩

end Lexical

/-! ## Tokens in order -/

variable {i : Nat} {token : Token}

section Order

variable {text : List Char} {tokens : List Token}

/-- A token of the list that is not trivia. -/
def Significant (tokens : List Token) (i : Nat) (token : Token) : Prop :=
  tokens[i]? = some token ∧ token.kind.isTrivia = false

theorem Tiling.start_le (h : Tiling text tokens) (ht : tokens[i]? = some token) :
    token.start ≤ token.stop := by
  by_cases hlast : i + 1 < tokens.length
  · refine Nat.le_of_lt (h.nonempty token (List.mem_of_getElem? (i := i) ?_))
    rw [List.getElem?_dropLast, if_pos (by omega), ht]
  · have hi := (List.getElem?_eq_some_iff.1 ht).1
    have heof := h.last
    rw [List.getLast?_eq_getElem?, show tokens.length - 1 = i by omega, ht] at heof
    rw [some.inj heof]

theorem Tiling.next (h : Tiling text tokens) {i : Nat} {token next : Token} (ht : tokens[i]? = some token)
    (hnext : tokens[i + 1]? = some next) : next.start = token.stop := by
  obtain ⟨hi, rfl⟩ := List.getElem?_eq_some_iff.1 ht
  obtain ⟨hj, rfl⟩ := List.getElem?_eq_some_iff.1 hnext
  exact h.consecutive.getElem i hj

/-- A token stops before a later one starts. -/
theorem Tiling.ordered (h : Tiling text tokens) (ht : tokens[i]? = some token) (d : Nat) :
    ∀ {later : Token}, tokens[i + d + 1]? = some later → token.stop ≤ later.start := by
  induction d with
  | zero => exact fun hlat => Nat.le_of_eq (h.next ht hlat).symm
  | succ d ih =>
    intro later hlat
    have hinsd := (List.getElem?_eq_some_iff.1 hlat).1
    obtain ⟨between, hbtw⟩ : ∃ between, tokens[i + d + 1]? = some between :=
      ⟨_, List.getElem?_eq_getElem (by omega)⟩
    have hnext := h.next hbtw hlat
    have hle := ih hbtw
    have hown := h.start_le hbtw
    omega

theorem Tiling.stop_le (h : Tiling text tokens) {i j : Nat} {token later : Token} (ht : tokens[i]? = some token)
    (hlat : tokens[j]? = some later) (hij : i < j) : token.stop ≤ later.start := by
  obtain ⟨d, rfl⟩ := Nat.exists_eq_add_of_lt hij
  exact h.ordered ht d hlat

theorem Tiling.stop_le_size (h : Tiling text tokens) (ht : tokens[i]? = some token) :
    token.stop ≤ size text := by
  have heof := h.last
  rw [List.getLast?_eq_getElem?] at heof
  have hi := (List.getElem?_eq_some_iff.1 ht).1
  by_cases hlast : i < tokens.length - 1
  · exact h.stop_le ht heof hlast
  · rw [show tokens.length - 1 = i by omega, ht] at heof
    rw [some.inj heof]

theorem Tiling.eof (h : Tiling text tokens) :
    ∃ n, tokens.length = n + 1 ∧ Significant tokens n ⟨.eof, size text, size text⟩ := by
  have hlast := h.last
  rw [List.getLast?_eq_getElem?] at hlast
  have hinsd := (List.getElem?_eq_some_iff.1 hlast).1
  exact ⟨tokens.length - 1, by omega, hlast, rfl⟩

theorem Tiling.spelling (h : Tiling text tokens) (hmem : token ∈ tokens) :
    ∃ spelling, slice text token.start token.stop = some spelling ∧ token.start + size spelling = token.stop := by
  obtain ⟨pieces, hpcs, -⟩ := h.spelled
  have hslc : slice text token.start token.stop ∈ pieces.map some := by
    rw [← hpcs]
    exact mem_map_of_mem hmem
  obtain ⟨spelling, -, hspel⟩ := mem_map.1 hslc
  obtain ⟨-, -, -, -, hsize⟩ := slice_some hspel.symm
  exact ⟨spelling, hspel.symm, hsize⟩

end Order

variable (starts : List Nat)

namespace Lexical

variable {text : List Char} {tokens : List Token}

/-! ## The boundary of a gap -/

theorem lineBreak_le {spelling : List Char} {stop : Nat} (h : lineBreak spelling = some stop) :
    stop ≤ size spelling := by
  obtain ⟨newline, hfind, hstop⟩ := bind_eq_some_iff.1 h
  obtain ⟨before, ch, after, rfl, rfl, -, -⟩ := findChar_some hfind
  have hch := ch.utf8Size_pos
  rw [dropBytes_size, map_some] at hstop
  cases hstop
  rw [size_append, size_cons]
  split
  next rest heq =>
    cases heq
    have hfeed : ('\n').utf8Size = 1 := rfl
    rw [size_cons]
    omega
  next => omega

/-- The boundary is not before the trivia, nor behind the token. -/
theorem gapBoundary_between (h : Tiling text tokens) {lo start : Nat} (hle : lo ≤ start) (gap : List Token)
    (hgap : ∀ trivia ∈ gap, trivia ∈ tokens ∧ lo ≤ trivia.start ∧ trivia.stop ≤ start) :
    ∃ boundary, gapBoundary text start gap = some boundary ∧ lo ≤ boundary ∧ boundary ≤ start := by
  induction gap with
  | nil => exact ⟨start, rfl, hle, Nat.le_refl _⟩
  | cons trivia rest ih =>
    obtain ⟨hmem, hlo, hstop⟩ := hgap trivia mem_cons_self
    obtain ⟨spelling, hslc, hsize⟩ := h.spelling hmem
    unfold gapBoundary
    rw [hslc, bind_some]
    cases hbreak : lineBreak spelling with
    | none => exact ih fun other hother => hgap other (mem_cons_of_mem _ hother)
    | some stop =>
      have hinsd := lineBreak_le hbreak
      refine ⟨_, rfl, ?_, ?_⟩
      · split <;> omega
      · split <;> omega

/-! ## The table of boundaries -/

/-- What `boundary` reads. -/
def valueAt (text : List Char) (tokens : List Token) (boundaries : Nat → Option Nat) (position : Nat) : Nat :=
  (boundaries position).getD (usual text tokens position)

theorem place_apply (boundary : Nat) (positions : List Nat) : ∀ (boundaries : Nat → Option Nat) (p : Nat),
    place text tokens boundary positions boundaries p =
      if p ∈ positions ∧ usual text tokens p ≠ boundary then some boundary else boundaries p := by
  induction positions with
  | nil => exact fun boundaries p => by simp [place]
  | cons position positions ih =>
    intro boundaries p
    have hstep : place text tokens boundary (position :: positions) boundaries = place text tokens boundary positions
        (if usual text tokens position = boundary then boundaries
          else Function.update boundaries position (some boundary)) := rfl
    rw [hstep, ih]
    by_cases hp : p = position
    · subst hp
      by_cases husual : usual text tokens p = boundary <;> simp [husual]
    · by_cases husual : usual text tokens position = boundary <;> simp [hp, husual]

/-- The boundaries of the positions before `first`. -/
structure Placed (text : List Char) (tokens : List Token) (first : Nat) (boundaries : Nat → Option Nat) : Prop where
  fresh : ∀ p, first ≤ p → boundaries p = none
  below : ∀ p i token, p < first → Significant tokens i token → i < p → token.stop ≤ valueAt text tokens boundaries p
  above : ∀ p i token, p < first → Significant tokens i token → p ≤ i → valueAt text tokens boundaries p ≤ token.start
  same : ∀ p q, p ≤ q → q < first → (∀ i token, p ≤ i → i < q → ¬ Significant tokens i token) →
    valueAt text tokens boundaries p = valueAt text tokens boundaries q
  zero : 0 < first → valueAt text tokens boundaries 0 = 0

/-- The gap before a significant token is placed. -/
theorem Placed.gap (h : Tiling text tokens) {previous : Option Nat} {boundaries : Nat → Option Nat}
    (hplcd : Placed text tokens (firstAfter previous) boundaries) {index boundary : Nat}
    (htok : Significant tokens index token) (hfst : firstAfter previous ≤ index)
    (hprev : ∀ i, previous = some i → ∃ before, Significant tokens i before ∧ before.stop ≤ boundary)
    (hnone : previous = none → boundary = 0) (hle : boundary ≤ token.start)
    (hgap : ∀ i other, firstAfter previous ≤ i → i < index → ¬ Significant tokens i other) :
    Placed text tokens (index + 1) (place text tokens boundary
      (List.range' (firstAfter previous) (index + 1 - firstAfter previous)) boundaries) := by
  have hold : ∀ p, p < firstAfter previous → valueAt text tokens (place text tokens boundary
      (List.range' (firstAfter previous) (index + 1 - firstAfter previous)) boundaries) p =
        valueAt text tokens boundaries p := by
    intro p hp
    unfold valueAt
    rw [place_apply, if_neg (by rw [mem_range'_1]; omega)]
  have hnew : ∀ p, firstAfter previous ≤ p → p < index + 1 → valueAt text tokens (place text tokens boundary
      (List.range' (firstAfter previous) (index + 1 - firstAfter previous)) boundaries) p = boundary := by
    intro p hp hlt
    have hmem : p ∈ List.range' (firstAfter previous) (index + 1 - firstAfter previous) := by
      rw [mem_range'_1]
      omega
    unfold valueAt
    rw [place_apply, hplcd.fresh p hp]
    by_cases husual : usual text tokens p = boundary <;> simp [hmem, husual]
  -- the significant token before the gap, where there is one
  have hbehind : 0 < firstAfter previous → ∃ i before, firstAfter previous = i + 1 ∧ Significant tokens i before ∧
      before.stop ≤ boundary := by
    intro hpos
    cases previous with
    | none => cases hpos
    | some i =>
      obtain ⟨before, hbef, hstop⟩ := hprev i rfl
      exact ⟨i, before, rfl, hbef, hstop⟩
  refine ⟨fun p hp => ?_, fun p i other hp hother hip => ?_, fun p i other hp hother hip => ?_,
    fun p q hpq hq hclear => ?_, fun _ => ?_⟩
  · rw [place_apply, if_neg (by rw [mem_range'_1]; omega)]
    exact hplcd.fresh p (by omega)
  · by_cases hside : p < firstAfter previous
    · rw [hold p hside]
      exact hplcd.below p i other hside hother hip
    · rw [hnew p (by omega) hp]
      have hbef : i < firstAfter previous := by
        by_contra hge
        exact hgap i other (by omega) (by omega) hother
      obtain ⟨last, before, hlast, hsig, hstop⟩ := hbehind (by omega)
      by_cases heq : i = last
      · subst heq
        rw [some.inj (hother.1.symm.trans hsig.1)]
        exact hstop
      · have hst := h.stop_le hother.1 hsig.1 (by omega)
        have hown := h.start_le hsig.1
        omega
  · by_cases hside : p < firstAfter previous
    · rw [hold p hside]
      exact hplcd.above p i other hside hother hip
    · rw [hnew p (by omega) hp]
      have hat : index ≤ i := by
        by_contra hlt
        exact hgap i other (by omega) (by omega) hother
      by_cases heq : i = index
      · subst heq
        rw [some.inj (hother.1.symm.trans htok.1)]
        exact hle
      · have hst := h.stop_le htok.1 hother.1 (by omega)
        have hown := h.start_le htok.1
        omega
  · by_cases hside : q < firstAfter previous
    · rw [hold p (by omega), hold q hside]
      exact hplcd.same p q hpq hside hclear
    · by_cases hinsd : firstAfter previous ≤ p
      · rw [hnew p hinsd (by omega), hnew q (by omega) hq]
      · obtain ⟨last, before, hlast, hsig, -⟩ := hbehind (by omega)
        exact absurd hsig (hclear last before (by omega) (by omega))
  · by_cases hside : 0 < firstAfter previous
    · rw [hold 0 hside]
      exact hplcd.zero hside
    · rw [hnew 0 (by omega) (by omega)]
      apply hnone
      cases previous with
      | none => rfl
      | some i => exact absurd (Nat.succ_pos i) hside

/-- The loop ends, and places every position. -/
theorem splits_placed (h : Tiling text tokens) (rest : List Token) : ∀ {index : Nat} {previous : Option Nat}
    {boundaries : Nat → Option Nat}, tokens.drop index = rest →
      (∀ i, previous = some i → i < index ∧ ∃ before, Significant tokens i before) →
      (∀ i other, firstAfter previous ≤ i → i < index → ¬ Significant tokens i other) →
      Placed text tokens (firstAfter previous) boundaries →
      ∃ boundaries', splits text tokens index previous boundaries rest = some boundaries' ∧
        Placed text tokens tokens.length boundaries' := by
  induction rest with
  | nil =>
    intro index previous boundaries hrest hprev hgap hplcd
    obtain ⟨n, hlen, heof⟩ := h.eof
    have hidx := List.drop_eq_nil_iff.1 hrest
    -- the token of the end is significant, and so the last position is placed
    have hfst : firstAfter previous = tokens.length := by
      have hle : n < firstAfter previous := by
        by_contra hlt
        exact hgap n _ (by omega) (by omega) heof
      cases previous with
      | none => cases hle
      | some i =>
        obtain ⟨-, before, hbef⟩ := hprev i rfl
        have hinsd := (List.getElem?_eq_some_iff.1 hbef.1).1
        have hval : firstAfter (some i) = i + 1 := rfl
        omega
    exact ⟨boundaries, rfl, hfst ▸ hplcd⟩
  | cons token rest ih =>
    intro index previous boundaries hrest hprev hgap hplcd
    have htok : tokens[index]? = some token := by
      rw [← Nat.add_zero index, ← List.getElem?_drop, hrest]
      rfl
    have hnext : tokens.drop (index + 1) = rest := by
      rw [← List.drop_drop, hrest]
      rfl
    unfold splits
    cases htriv : token.kind.isTrivia with
    | true =>
      rw [if_pos rfl]
      refine ih hnext (fun i hi => ?_) (fun i other hle hlt hother => ?_) hplcd
      · obtain ⟨hlt, hbef⟩ := hprev i hi
        exact ⟨by omega, hbef⟩
      · by_cases heq : i = index
        · subst heq
          rw [some.inj (htok.symm.trans hother.1), hother.2] at htriv
          cases htriv
        · exact hgap i other hle (by omega) hother
    | false =>
      rw [if_neg Bool.false_ne_true]
      have hsig : Significant tokens index token := ⟨htok, htriv⟩
      obtain ⟨boundary, hbdry, hbef, hnone, hle⟩ : ∃ boundary,
          (if previous.isSome then gapBoundary text token.start ((tokens.take index).drop (firstAfter previous))
            else some 0) = some boundary ∧
          (∀ i, previous = some i → ∃ before, Significant tokens i before ∧ before.stop ≤ boundary) ∧
          (previous = none → boundary = 0) ∧ boundary ≤ token.start := by
        cases previous with
        | none => exact ⟨0, rfl, nofun, fun _ => rfl, Nat.zero_le _⟩
        | some i =>
          obtain ⟨hlt, before, hbef⟩ := hprev i rfl
          obtain ⟨boundary, hbdry, hlo, hhi⟩ := gapBoundary_between h (h.stop_le hbef.1 htok hlt)
            ((tokens.take index).drop (firstAfter (some i))) (by
              intro trivia hmem
              obtain ⟨j, hj⟩ := List.mem_iff_getElem?.1 hmem
              rw [List.getElem?_drop, List.getElem?_take] at hj
              split at hj
              next hinsd =>
                have hval : firstAfter (some i) = i + 1 := rfl
                exact ⟨List.mem_of_getElem? hj, h.stop_le hbef.1 hj (by omega), h.stop_le hj htok hinsd⟩
              next => cases hj)
          exact ⟨boundary, hbdry, fun j hj => by
            cases hj
            exact ⟨before, hbef, hlo⟩, nofun, hhi⟩
      have hfst : firstAfter previous ≤ index := by
        cases previous with
        | none => exact Nat.zero_le _
        | some i => exact (hprev i rfl).1
      dsimp only
      rw [hbdry, bind_some]
      refine ih hnext (fun i hi => ?_) (fun i other haft hlt => ?_)
        (hplcd.gap h hsig hfst hbef hnone hle hgap)
      · cases hi
        exact ⟨Nat.lt_succ_self _, token, hsig⟩
      · have hval : firstAfter (some index) = index + 1 := rfl
        omega

/-! ## The stored offsets -/

theorem narrowed_mapM {w : Nat} (h : ∀ start ∈ starts, start < 2 ^ w) :
    ∃ stored, starts.mapM (narrowed w) = some stored ∧ stored.map BitVec.toNat = starts := by
  induction starts with
  | nil => exact ⟨[], rfl, rfl⟩
  | cons start starts ih =>
    obtain ⟨stored, hstor, hvals⟩ := ih fun other hother => h other (mem_cons_of_mem _ hother)
    have hst := h start mem_cons_self
    refine ⟨BitVec.ofNat w start :: stored, ?_, ?_⟩
    · rw [mapM_cons, hstor]
      simp [narrowed, hst]
    · rw [map_cons, hvals, BitVec.toNat_ofNat, Nat.mod_eq_of_lt hst]

/-- The offsets fit the width that is chosen. -/
theorem offsets_new {length : Nat} (hlen : length < 2 ^ 32)
    (h : ∀ start ∈ starts, start ≤ length) :
    ∃ offsets, Offsets.new length starts = some offsets ∧ ∀ index, offsets.get index = starts[index]? := by
  unfold Offsets.new
  split
  next hnarr =>
    obtain ⟨stored, hstor, hvals⟩ := narrowed_mapM (w := 16) starts fun start hmem =>
      Nat.lt_of_le_of_lt (h start hmem) hnarr
    refine ⟨.narrow stored, by rw [hstor]; rfl, fun index => ?_⟩
    rw [← hvals, getElem?_map]
    rfl
  next =>
    obtain ⟨stored, hstor, hvals⟩ := narrowed_mapM (w := 32) starts fun start hmem =>
      Nat.lt_of_le_of_lt (h start hmem) hlen
    refine ⟨.wide stored, by rw [hstor]; rfl, fun index => ?_⟩
    rw [← hvals, getElem?_map]
    rfl

/-! ## Sites -/

/-- The table of a tiling: it reads back the tokens, and its boundaries are those placed. -/
theorem new_tiling (h : Tiling text tokens) (hsize : size text < 2 ^ 32) (hlen : tokens.length < 2 ^ 32) :
    ∃ lexical boundaries, new text tokens = some lexical ∧ Placed text tokens tokens.length boundaries ∧
      ∀ p, lexical.boundary p = valueAt text tokens boundaries p := by
  have hst : Placed text tokens (firstAfter none) fun _ => none :=
    ⟨fun _ _ => rfl, fun p _ _ hp => absurd hp (Nat.not_lt_zero p), fun p _ _ hp => absurd hp (Nat.not_lt_zero p),
      fun _ q _ hq => absurd hq (Nat.not_lt_zero q), fun hpos => absurd hpos (Nat.lt_irrefl 0)⟩
  obtain ⟨boundaries, hsplits, hplcd⟩ := splits_placed h tokens drop_zero (by rintro i ⟨⟩)
    (fun i _ _ hlt => absurd hlt (Nat.not_lt_zero i)) hst
  obtain ⟨offsets, hoffsets, hget⟩ := offsets_new (tokens.map Token.start) hsize (by
    intro start hmem
    obtain ⟨token, htok, rfl⟩ := mem_map.1 hmem
    obtain ⟨i, hi⟩ := mem_iff_getElem?.1 htok
    exact Nat.le_trans (h.start_le hi) (h.stop_le_size hi))
  refine ⟨⟨offsets, tokens.map Token.kind, boundaries, size text⟩, boundaries, ?_, hplcd, fun p => ?_⟩
  · unfold new
    rw [if_pos ⟨hsize, hlen⟩, hsplits, bind_some, hoffsets]
    rfl
  · unfold boundary valueAt kind offset usual
    simp only [hget, getElem?_map]
    cases boundaries p with
    | some offset => rfl
    | none => cases tokens[p]? <;> rfl

/-- Whether a span has a byte. -/
def holds (x : Nat) (span : Span) : Bool := span.start ≤ x ∧ x < span.stop

/-- The boundaries of a source are monotone and between the significant tokens around them; and where sites follow
one another through the source, so do the full spans of those with tokens, and each byte is in one full span. -/
theorem lexical_tiles (text : List Char) : ∃ tokens, lex text = some tokens ∧
    (size text < 2 ^ 32 → tokens.length < 2 ^ 32 → ∃ lexical, new text tokens = some lexical ∧
      (∀ p q, p ≤ q → q ≤ tokens.length → lexical.boundary p ≤ lexical.boundary q) ∧
      (∀ p i token, p ≤ tokens.length → Significant tokens i token →
        (i < p → token.stop ≤ lexical.boundary p) ∧ (p ≤ i → lexical.boundary p ≤ token.start)) ∧
      ∀ sites : List SyntaxSite, Consecutive 0 tokens.length (sites.map fun site => (site.first, site.stop)) →
        Consecutive 0 (size text) (((sites.filter fun site => site.first < site.stop).map lexical.fullSpan).map
          fun span => (span.start, span.stop)) ∧
        ∀ x, x < size text → (sites.map lexical.fullSpan).countP (holds x) = 1) := by
  obtain ⟨tokens, hlex, h⟩ := lex_tiles text
  refine ⟨tokens, hlex, fun hsize hlen => ?_⟩
  obtain ⟨lexical, boundaries, hnew, hplcd, hbdry⟩ := new_tiling h hsize hlen
  obtain ⟨n, hn, heof⟩ := h.eof
  have hend : lexical.boundary tokens.length = size text := by
    rw [hbdry, valueAt, hplcd.fresh _ (Nat.le_refl _), usual, List.getElem?_eq_none (Nat.le_refl _)]
    rfl
  have hzero : lexical.boundary 0 = 0 := by
    rw [hbdry]
    exact hplcd.zero (by omega)
  have hbtw : ∀ p i token, p ≤ tokens.length → Significant tokens i token →
      (i < p → token.stop ≤ lexical.boundary p) ∧ (p ≤ i → lexical.boundary p ≤ token.start) := by
    intro p i token hp htok
    have hinsd := (List.getElem?_eq_some_iff.1 htok.1).1
    refine ⟨fun hip => ?_, fun hpi => ?_⟩
    · by_cases hlast : p = tokens.length
      · rw [hlast, hend]
        exact h.stop_le_size htok.1
      · rw [hbdry]
        exact hplcd.below p i token (by omega) htok hip
    · rw [hbdry]
      exact hplcd.above p i token (by omega) htok hpi
  have hmono : ∀ p q, p ≤ q → q ≤ tokens.length → lexical.boundary p ≤ lexical.boundary q := by
    intro p q hpq hq
    by_cases hclear : ∀ i token, p ≤ i → i < q → ¬ Significant tokens i token
    · by_cases hlast : q < tokens.length
      · rw [hbdry, hbdry]
        exact Nat.le_of_eq (hplcd.same p q hpq hlast hclear)
      · obtain rfl : p = q := by
          by_contra hne
          exact hclear n _ (by omega) (by omega) heof
        exact Nat.le_refl _
    · push Not at hclear
      obtain ⟨i, token, hpi, hiq, htok⟩ := hclear
      have hbef := (hbtw p i token (by omega) htok).2 hpi
      have haft := (hbtw q i token hq htok).1 hiq
      have hown := h.start_le htok.1
      omega
  refine ⟨lexical, hnew, hmono, hbtw, fun sites hsites => ?_⟩
  have hspn : ((sites.filter fun site => site.first < site.stop).map lexical.fullSpan).map
      (fun span => (span.start, span.stop)) =
        ((sites.map fun site => (site.first, site.stop)).filter fun range => range.1 < range.2).map
          fun range => (lexical.boundary range.1, lexical.boundary range.2) := by
    rw [List.filter_map, List.map_map, List.map_map]
    refine List.map_congr_left fun site hmem => ?_
    have hne : site.first ≠ site.stop := by
      have hlt := List.of_mem_filter hmem
      simp only [decide_eq_true_eq] at hlt
      omega
    simp [fullSpan, hne]
  have htiles := hsites.filter.map hmono
  rw [← hspn, hzero, hend] at htiles
  refine ⟨htiles, fun x hx => ?_⟩
  have hcnt := htiles.count_inside (Nat.zero_le x) hx
  -- an empty site has an empty span
  rw [List.map_map, List.countP_map, List.countP_filter] at hcnt
  rw [List.countP_map, ← hcnt]
  refine List.countP_congr fun site hmem => ?_
  have hord := hsites.ordered _ (List.mem_map_of_mem hmem)
  by_cases hemp : site.first = site.stop
  · simp [holds, fullSpan, bodySpan, hemp]
  · have hlt : site.first < site.stop := Nat.lt_of_le_of_ne hord hemp
    simp [holds, hlt]

/-- The comment belongs to the site before it, which ends behind the line break. -/
theorem lexical_tiles_comment : ∃ tokens lexical, lex "a // b\nc".toList = some tokens ∧ tokens.length = 6 ∧
    new "a // b\nc".toList tokens = some lexical ∧ lexical.boundary 1 = 7 ∧ ∀ x, x < 8 →
      (([⟨0, 1⟩, ⟨1, 1⟩, ⟨1, 6⟩] : List SyntaxSite).map lexical.fullSpan).countP (holds x) = 1 := by
  obtain ⟨tokens, hlex, h⟩ := lexical_tiles "a // b\nc".toList
  obtain ⟨rfl, hsix⟩ : tokens = (lex "a // b\nc".toList).getD [] ∧ tokens.length = 6 := by
    have hlen : ((lex "a // b\nc".toList).getD []).length = 6 := by decide +kernel
    rw [hlex] at hlen ⊢
    exact ⟨rfl, hlen⟩
  obtain ⟨lexical, hnew, -, -, htile⟩ := h (by decide) (by omega)
  refine ⟨_, lexical, hlex, hsix, hnew, ?_, fun x hx => (htile _ ?_).2 x hx⟩
  · have hbdry : (new "a // b\nc".toList ((lex "a // b\nc".toList).getD [])).map (·.boundary 1) = some 7 := by
      decide +kernel
    rw [hnew] at hbdry
    exact Option.some.inj hbdry
  · rw [hsix]
    decide

end Lexical

end Kagari.Syntax
