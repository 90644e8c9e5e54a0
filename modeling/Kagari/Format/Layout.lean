import Mathlib.Algebra.Ring.Nat
import Mathlib.Data.List.DropRight

/-!
# Layout documents

`kagari-format/src/layout.rs`: documents of texts, lines and groups, and the printer that decides for each
group whether it stays on one line.

Strings are lists of characters. Polls of the cancellation token are left out.
-/

namespace Kagari.Format

open List

inductive Doc where
  | text (text : List Char)
  | requiredLine
  | line (flat : List Char) (hard : Bool)
  | concat (parts : List Doc)
  | indent (inner : Doc)
  | group (inner : Doc)

def isNewline (c : Char) : Bool := c = '\r' ∨ c = '\n'

/-- `str::len`. -/
def byteLength (text : List Char) : Nat := (text.map Char.utf8Size).sum

mutual

def flatWidth : Doc → Nat → Option Nat
  | .text text, budget => (if text.any isNewline then none else some text.length).filter (· ≤ budget)
  | .requiredLine, _ => none
  | .line flat hard, budget => (if hard then none else some (byteLength flat)).filter (· ≤ budget)
  | .indent inner, budget => (flatWidth inner budget).filter (· ≤ budget)
  | .group inner, budget => (flatWidth inner budget).filter (· ≤ budget)
  | .concat parts, budget => (flatWidthLoop parts budget 0).filter (· ≤ budget)

def flatWidthLoop : List Doc → Nat → Nat → Option Nat
  | [], _, used => some used
  | part :: parts, budget, used =>
    match flatWidth part (budget - used) with
    | none => none
    | some width => if budget < used + width then none else flatWidthLoop parts budget (used + width)

end

structure Printer where
  output : List Char
  column : Nat
  pendingIndent : Nat
  width : Nat
  indent : Nat
  newline : List Char

namespace Printer

/-- The characters after the last line feed. -/
def lastLine (text : List Char) : List Char := text.rtakeWhile (· ≠ '\n')

def writeText (p : Printer) (text : List Char) : Printer :=
  if text.isEmpty then p
  else
    let p := if 0 < p.pendingIndent then { p with
        output := p.output ++ List.replicate p.pendingIndent ' '
        column := p.pendingIndent
        pendingIndent := 0 }
      else p
    { p with
      output := p.output ++ text
      column := if '\n' ∈ text then (lastLine text).length else p.column + text.length }

def writeLine (p : Printer) (depth : Nat) : Printer :=
  { p with output := p.output ++ p.newline, column := 0, pendingIndent := depth * p.indent }

def remaining (p : Printer) : Nat := p.width - max p.column p.pendingIndent

/-- How a group is written. -/
def fits (p : Printer) (inner : Doc) (flat : Bool) : Bool := flat || (flatWidth inner p.remaining).isSome

mutual

def write (p : Printer) : Doc → Nat → Bool → Printer
  | .text text, _, _ => p.writeText text
  | .requiredLine, depth, _ => p.writeLine depth
  | .line replacement hard, depth, flat =>
    if flat && !hard then p.writeText replacement else p.writeLine depth
  | .concat parts, depth, flat => p.writeLoop parts depth flat
  | .indent inner, depth, flat => p.write inner (depth + 1) flat
  | .group inner, depth, flat => p.write inner depth (p.fits inner flat)

def writeLoop (p : Printer) : List Doc → Nat → Bool → Printer
  | [], _, _ => p
  | part :: parts, depth, flat => (p.write part depth flat).writeLoop parts depth flat

end

def start (width indent : Nat) (newline : List Char) : Printer := ⟨[], 0, 0, width, indent, newline⟩

end Printer

def print (doc : Doc) (width indent : Nat) (newline : List Char) : List Char :=
  ((Printer.start width indent newline).write doc 0 false).output.rdropWhile isNewline ++ newline

example : print (.group (.concat [.text "call(".toList, .indent (.concat [.line [] false, .text "first,".toList,
    .line [' '] false, .text "second".toList]), .line [] false, .text ")".toList])) 12 2 "\r\n".toList =
    "call(\r\n  first,\r\n  second\r\n)\r\n".toList := by
  decide

/-! ## What a document is -/

mutual

/-- A forced line break. -/
def Doc.forced : Doc → Bool
  | .text chars => chars.any isNewline
  | .requiredLine => true
  | .line _ hard => hard
  | .concat parts => Doc.forcedAny parts
  | .indent inner => inner.forced
  | .group inner => inner.forced

def Doc.forcedAny : List Doc → Bool
  | [] => false
  | part :: parts => part.forced || Doc.forcedAny parts

end

mutual

/-- The rendering without line breaks. -/
def Doc.flat : Doc → List Char
  | .text chars => chars
  | .requiredLine => []
  | .line flat _ => flat
  | .concat parts => Doc.flatAll parts
  | .indent inner => inner.flat
  | .group inner => inner.flat

def Doc.flatAll : List Doc → List Char
  | [] => []
  | part :: parts => part.flat ++ Doc.flatAll parts

end

mutual

/-- Its width, in characters of the texts and bytes of the lines. -/
def Doc.flatLength : Doc → Nat
  | .text chars => chars.length
  | .requiredLine => 0
  | .line flat _ => byteLength flat
  | .concat parts => Doc.flatLengthAll parts
  | .indent inner => inner.flatLength
  | .group inner => inner.flatLength

def Doc.flatLengthAll : List Doc → Nat
  | [] => 0
  | part :: parts => part.flatLength + Doc.flatLengthAll parts

end

mutual

/-- The texts, in their order. -/
def Doc.texts : Doc → List (List Char)
  | .text chars => [chars]
  | .requiredLine => []
  | .line _ _ => []
  | .concat parts => Doc.textsAll parts
  | .indent inner => inner.texts
  | .group inner => inner.texts

def Doc.textsAll : List Doc → List (List Char)
  | [] => []
  | part :: parts => part.texts ++ Doc.textsAll parts

end

mutual

/-- What may stand for a line break. -/
def Doc.replacements : Doc → List (List Char)
  | .text _ => []
  | .requiredLine => []
  | .line flat hard => if hard then [] else [flat]
  | .concat parts => Doc.replacementsAll parts
  | .indent inner => inner.replacements
  | .group inner => inner.replacements

def Doc.replacementsAll : List Doc → List (List Char)
  | [] => []
  | part :: parts => part.replacements ++ Doc.replacementsAll parts

end

/-! ## The width of a document -/

theorem filter_le {width : Option Nat} {n budget : Nat} {forced : Bool}
    (h : width = if forced = true ∨ budget < n then none else some n) :
    width.filter (· ≤ budget) = if forced = true ∨ budget < n then none else some n := by
  rw [h]
  split
  · rfl
  · rename_i hfits
    exact Option.filter_some_pos (by simp; omega)

theorem filter_unforced {n budget : Nat} {forced : Bool} :
    (if forced = true then none else some n).filter (· ≤ budget) =
      if forced = true ∨ budget < n then none else some n := by
  cases forced with
  | true => simp
  | false =>
    by_cases hle : n ≤ budget
    · simp [Option.filter, hle, Nat.not_lt.mpr hle]
    · simp [Option.filter, hle, Nat.not_le.mp hle]

mutual

theorem flatWidth_eq (doc : Doc) (budget : Nat) :
    flatWidth doc budget = if doc.forced ∨ budget < doc.flatLength then none else some doc.flatLength := by
  match doc with
  | .text text =>
    rw [flatWidth, Doc.forced, Doc.flatLength]
    exact filter_unforced
  | .requiredLine => rfl
  | .line flat hard =>
    rw [flatWidth, Doc.forced, Doc.flatLength]
    exact filter_unforced
  | .concat parts =>
    rw [flatWidth, Doc.forced, Doc.flatLength]
    refine filter_le ((flatWidthLoop_eq parts budget 0 (Nat.zero_le _)).trans ?_)
    rw [Nat.zero_add]
  | .indent inner =>
    rw [flatWidth, Doc.forced, Doc.flatLength]
    exact filter_le (flatWidth_eq inner budget)
  | .group inner =>
    rw [flatWidth, Doc.forced, Doc.flatLength]
    exact filter_le (flatWidth_eq inner budget)

theorem flatWidthLoop_eq (parts : List Doc) (budget used : Nat) (h : used ≤ budget) :
    flatWidthLoop parts budget used = if Doc.forcedAny parts ∨ budget < used + Doc.flatLengthAll parts then none
      else some (used + Doc.flatLengthAll parts) := by
  match parts with
  | [] =>
    rw [flatWidthLoop, Doc.forcedAny, Doc.flatLengthAll, if_neg (by simp; omega), Nat.add_zero]
  | part :: parts =>
    rw [flatWidthLoop, flatWidth_eq part, Doc.forcedAny, Doc.flatLengthAll]
    by_cases hpart : part.forced = true ∨ budget - used < part.flatLength
    · rw [if_pos hpart, if_pos]
      rcases hpart with hfrcd | hlong
      · exact .inl (by rw [hfrcd, Bool.true_or])
      · exact .inr (by omega)
    · obtain ⟨hfrcd, hlong⟩ := not_or.mp hpart
      rw [if_neg hpart]
      dsimp only
      rw [if_neg (by omega), flatWidthLoop_eq parts _ _ (by omega), eq_false_of_ne_true hfrcd,
        Bool.false_or, Nat.add_assoc]

end

/-! ## What is written -/

/-- What a document puts into the output: its texts, and what stands between them. -/
inductive Piece where
  | text (chars : List Char)
  | newline
  | spaces (count : Nat)
  | flat (chars : List Char)

def Piece.chars (newline : List Char) : Piece → List Char
  | .text chars => chars
  | .newline => newline
  | .spaces count => List.replicate count ' '
  | .flat chars => chars

def Piece.text? : Piece → Option (List Char)
  | .text chars => some chars
  | _ => none

def Piece.flat? : Piece → Option (List Char)
  | .flat chars => some chars
  | _ => none

variable {depth : Nat} (before after : List Doc) (p : Printer)

namespace Printer

/-- The output grows by some pieces: these are their texts, and what they have for line breaks is among these, in
their order. -/
structure Puts (p p' : Printer) (texts replacements : List (List Char)) : Prop where
  output : ∃ pieces : List Piece, p'.output = p.output ++ pieces.flatMap (Piece.chars p.newline) ∧
    pieces.filterMap Piece.text? = texts ∧ (pieces.filterMap Piece.flat?).Sublist replacements
  newline : p'.newline = p.newline
  width : p'.width = p.width
  indent : p'.indent = p.indent

theorem Puts.refl : Puts p p [] [] := ⟨⟨[], by simp⟩, rfl, rfl, rfl⟩

theorem Puts.trans {p p' p'' : Printer} {texts texts' replacements replacements' : List (List Char)}
    (h : Puts p p' texts replacements) (h' : Puts p' p'' texts' replacements') :
    Puts p p'' (texts ++ texts') (replacements ++ replacements') := by
  obtain ⟨pieces, hout, htexts, hflats⟩ := h.output
  obtain ⟨pieces', hout', htexts', hflats'⟩ := h'.output
  refine ⟨⟨pieces ++ pieces', ?_, ?_, ?_⟩, h'.newline.trans h.newline, h'.width.trans h.width, h'.indent.trans h.indent⟩
  · rw [hout', hout, h.newline, flatMap_append, append_assoc]
  · rw [filterMap_append, htexts, htexts']
  · rw [filterMap_append]
    exact hflats.append hflats'

/-- A text, as one of the document or as a replacement. -/
theorem puts_text (text : List Char) {piece : Piece} (hpce : piece.chars p.newline = text) :
    Puts p (p.writeText text) piece.text?.toList piece.flat?.toList := by
  unfold writeText
  split
  · rename_i hemp
    refine ⟨⟨[piece], ?_, ?_, ?_⟩, rfl, rfl, rfl⟩
    · simp [hpce, isEmpty_iff.mp hemp]
    · cases piece <;> rfl
    · cases piece <;> exact .refl _
  · split
    · refine ⟨⟨[.spaces p.pendingIndent, piece], ?_, ?_, ?_⟩, rfl, rfl, rfl⟩
      · rw [flatMap_cons, flatMap_singleton, hpce, ← append_assoc]
        rfl
      · cases piece <;> rfl
      · cases piece <;> exact .refl _
    · refine ⟨⟨[piece], ?_, ?_, ?_⟩, rfl, rfl, rfl⟩
      · simp [hpce]
      · cases piece <;> rfl
      · cases piece <;> exact .refl _

theorem puts_line (depth : Nat) (replacements : List (List Char)) :
    Puts p (p.writeLine depth) [] replacements :=
  ⟨⟨[.newline], by simp [writeLine, Piece.chars], rfl, nil_sublist _⟩, rfl, rfl, rfl⟩

mutual

theorem write_puts (p : Printer) (doc : Doc) (depth : Nat) (flat : Bool) :
    Puts p (p.write doc depth flat) doc.texts doc.replacements := by
  match doc with
  | .text text => exact puts_text p text (show (Piece.text text).chars p.newline = text from rfl)
  | .requiredLine => exact puts_line p depth []
  | .line replacement hard =>
    rw [write]
    split
    · rename_i hsoft
      rw [Doc.replacements, if_neg (by simp_all)]
      exact puts_text p replacement (show (Piece.flat replacement).chars p.newline = replacement from rfl)
    · exact puts_line p depth _
  | .concat parts => exact writeLoop_puts p parts depth flat
  | .indent inner => exact write_puts p inner (depth + 1) flat
  | .group inner => exact write_puts p inner depth (p.fits inner flat)

theorem writeLoop_puts (p : Printer) (parts : List Doc) (depth : Nat) (flat : Bool) :
    Puts p (p.writeLoop parts depth flat) (Doc.textsAll parts) (Doc.replacementsAll parts) := by
  match parts with
  | [] => exact .refl p
  | part :: parts => exact (write_puts p part depth flat).trans (writeLoop_puts _ parts depth flat)

end

/-! ## Columns -/

theorem lastLine_append (before text : List Char) :
    lastLine (before ++ text) = if '\n' ∈ text then lastLine text else lastLine before ++ text := by
  induction text using List.reverseRecOn with
  | nil => simp
  | append_singleton text c ih =>
    unfold lastLine at ih ⊢
    rw [← append_assoc, rtakeWhile_concat, rtakeWhile_concat, ih]
    by_cases hc : c = '\n'
    · simp [hc]
    · simp only [ne_eq, hc, not_false_eq_true, decide_true, if_true, mem_append, mem_singleton,
        Ne.symm hc, or_false]
      split <;> simp

theorem lastLine_spaces (before : List Char) (count : Nat) :
    lastLine (before ++ List.replicate count ' ') = lastLine before ++ List.replicate count ' ' := by
  rw [lastLine_append, if_neg (by simp)]

/-- The column is the length of the line that the output ends with; indentation is due only where it starts. -/
structure Placed (p : Printer) : Prop where
  column : p.column = (lastLine p.output).length
  pending : 0 < p.pendingIndent → p.column = 0
  newline : p.newline.getLast? = some '\n'

theorem Placed.start {width indent : Nat} {newline : List Char} (h : newline.getLast? = some '\n') :
    Placed (.start width indent newline) := ⟨rfl, fun _ => rfl, h⟩

theorem Placed.text {p : Printer} (h : Placed p) (text : List Char) : Placed (p.writeText text) := by
  have hline {before : List Char} {column : Nat} (hcolumn : column = (lastLine before).length) :
      (if '\n' ∈ text then (lastLine text).length else column + text.length) = (lastLine (before ++ text)).length := by
    rw [lastLine_append]
    split
    · rfl
    · rw [length_append, hcolumn]
  unfold writeText
  split
  · exact h
  · by_cases hpend : 0 < p.pendingIndent
    · rw [if_pos hpend]
      refine ⟨hline ?_, fun hlt => absurd hlt (Nat.lt_irrefl 0), h.newline⟩
      rw [lastLine_spaces, length_append, ← h.column, h.pending hpend, length_replicate, Nat.zero_add]
    · rw [if_neg hpend]
      exact ⟨hline h.column, fun hlt => absurd hlt hpend, h.newline⟩

theorem Placed.line {p : Printer} (h : Placed p) (depth : Nat) : Placed (p.writeLine depth) := by
  refine ⟨?_, fun _ => rfl, h.newline⟩
  obtain ⟨before, hnewline⟩ := getLast?_eq_some_iff.mp h.newline
  dsimp only [writeLine]
  rw [hnewline, ← append_assoc, lastLine, rtakeWhile_concat_neg _ _ _ (by simp)]
  rfl

mutual

theorem Placed.write {p : Printer} (h : Placed p) (doc : Doc) (depth : Nat) (flat : Bool) :
    Placed (p.write doc depth flat) := by
  match doc with
  | .text text => exact h.text text
  | .requiredLine => exact h.line depth
  | .line replacement hard =>
    rw [Printer.write]
    split
    · exact h.text replacement
    · exact h.line depth
  | .concat parts => exact h.writeLoop parts depth flat
  | .indent inner => exact h.write inner (depth + 1) flat
  | .group inner => exact h.write inner depth (p.fits inner flat)

theorem Placed.writeLoop {p : Printer} (h : Placed p) (parts : List Doc) (depth : Nat) (flat : Bool) :
    Placed (p.writeLoop parts depth flat) := by
  match parts with
  | [] => exact h
  | part :: parts => exact (h.write part depth flat).writeLoop parts depth flat

end

/-! ## Flat groups -/

/-- Where the next character goes. -/
def cursor (p : Printer) : Nat := max p.column p.pendingIndent

/-- The line that the next character goes to. -/
def line (p : Printer) : List Char := lastLine (p.output ++ List.replicate p.pendingIndent ' ')

theorem Placed.cursor {p : Printer} (h : Placed p) : p.cursor = p.line.length := by
  rw [Printer.line, lastLine_spaces, length_append, length_replicate, ← h.column, Printer.cursor]
  by_cases hpend : 0 < p.pendingIndent
  · rw [h.pending hpend, Nat.zero_add, Nat.zero_max]
  · omega

/-- A document written on one line. -/
structure WritesFlat (p p' : Printer) (chars : List Char) (length : Nat) : Prop where
  output : p'.output = p.output ++ if chars = [] then [] else List.replicate p.pendingIndent ' ' ++ chars
  pending : p'.pendingIndent = if chars = [] then p.pendingIndent else 0
  cursor : p'.cursor ≤ p.cursor + length
  length : chars.length ≤ length
  width : p'.width = p.width

theorem WritesFlat.refl : WritesFlat p p [] 0 := ⟨by simp, rfl, Nat.le_refl _, Nat.le_refl _, rfl⟩

theorem WritesFlat.trans {p p' p'' : Printer} {chars chars' : List Char} {length length' : Nat}
    (h : WritesFlat p p' chars length) (h' : WritesFlat p' p'' chars' length') :
    WritesFlat p p'' (chars ++ chars') (length + length') := by
  refine ⟨?_, ?_, ?_, ?_, h'.width.trans h.width⟩
  · rw [h'.output, h.output, h.pending]
    by_cases hchars : chars = [] <;> by_cases hchars' : chars' = [] <;> simp [hchars, hchars']
  · rw [h'.pending, h.pending]
    by_cases hchars : chars = [] <;> by_cases hchars' : chars' = [] <;> simp [hchars, hchars']
  · have := h.cursor
    have := h'.cursor
    omega
  · rw [length_append]
    exact Nat.add_le_add h.length h'.length

theorem length_le_byteLength (text : List Char) : text.length ≤ byteLength text := by
  induction text with
  | nil => exact Nat.le_refl _
  | cons c text ih =>
    have := c.utf8Size_pos
    simp only [byteLength, map_cons, sum_cons, length_cons] at ih ⊢
    omega

theorem byteLength_eq {text : List Char} (h : ∀ c ∈ text, c.utf8Size = 1) : byteLength text = text.length := by
  induction text with
  | nil => rfl
  | cons c text ih =>
    obtain ⟨hc, htext⟩ := forall_mem_cons.mp h
    have := ih htext
    simp only [byteLength, map_cons, sum_cons, length_cons] at this ⊢
    omega

theorem writesFlat_text {text : List Char} {length : Nat} (h : text.length ≤ length) :
    WritesFlat p (p.writeText text) text length := by
  have hlast : (lastLine text).length ≤ text.length := (rtakeWhile_suffix _ _).length_le
  by_cases hemp : text = []
  · subst hemp
    exact ⟨by simp [writeText], rfl, Nat.le_add_right _ _, h, rfl⟩
  · have hisEmpty : ¬ text.isEmpty = true := by simpa using hemp
    unfold writeText
    rw [if_neg hisEmpty]
    by_cases hpend : 0 < p.pendingIndent
    · simp only [if_pos hpend]
      refine ⟨by simp [hemp], by simp [hemp], ?_, h, rfl⟩
      dsimp only [cursor]
      split <;> omega
    · have hzero : p.pendingIndent = 0 := by omega
      simp only [if_neg hpend]
      refine ⟨by simp [hemp, hzero], by simp [hemp, hzero], ?_, h, rfl⟩
      dsimp only [cursor]
      split <;> omega

mutual

theorem write_flat (p : Printer) (doc : Doc) (depth : Nat) (h : doc.forced = false) :
    WritesFlat p (p.write doc depth true) doc.flat doc.flatLength := by
  match doc with
  | .text text => exact writesFlat_text p (Nat.le_refl _)
  | .requiredLine => cases h
  | .line replacement hard =>
    obtain rfl : hard = false := h
    exact writesFlat_text p (length_le_byteLength replacement)
  | .concat parts => exact writeLoop_flat p parts depth h
  | .indent inner => exact write_flat p inner (depth + 1) h
  | .group inner => exact write_flat p inner depth h

theorem writeLoop_flat (p : Printer) (parts : List Doc) (depth : Nat) (h : Doc.forcedAny parts = false) :
    WritesFlat p (p.writeLoop parts depth true) (Doc.flatAll parts) (Doc.flatLengthAll parts) := by
  match parts with
  | [] => exact .refl p
  | part :: parts =>
    obtain ⟨hpart, hpts⟩ := Bool.or_eq_false_iff.mp h
    exact (write_flat p part depth hpart).trans (writeLoop_flat _ parts depth hpts)

end

/-- Every character of a rendering without line breaks is of a text without them, or of a replacement. -/
def Rendered (replacements : List (List Char)) (flat : List Char) : Prop :=
  ∀ c ∈ flat, isNewline c = false ∨ ∃ replacement ∈ replacements, c ∈ replacement

mutual

theorem flat_rendered (doc : Doc) (h : doc.forced = false) : Rendered doc.replacements doc.flat := by
  match doc with
  | .text text => exact fun c hc => .inl (eq_false_of_ne_true (any_eq_false.mp h c hc))
  | .requiredLine => cases h
  | .line flat hard =>
    obtain rfl : hard = false := h
    exact fun c hc => .inr ⟨flat, mem_singleton_self flat, hc⟩
  | .concat parts => exact flatAll_rendered parts h
  | .indent inner => exact flat_rendered inner h
  | .group inner => exact flat_rendered inner h

theorem flatAll_rendered (parts : List Doc) (h : Doc.forcedAny parts = false) :
    Rendered (Doc.replacementsAll parts) (Doc.flatAll parts) := by
  match parts with
  | [] => exact nofun
  | part :: parts =>
    obtain ⟨hpart, hpts⟩ := Bool.or_eq_false_iff.mp h
    intro c hc
    rcases mem_append.mp hc with hc | hc
    · refine (flat_rendered part hpart c hc).imp_right ?_
      exact fun ⟨replacement, hmem, hc⟩ => ⟨replacement, mem_append_left _ hmem, hc⟩
    · refine (flatAll_rendered parts hpts c hc).imp_right ?_
      exact fun ⟨replacement, hmem, hc⟩ => ⟨replacement, mem_append_right _ hmem, hc⟩

end

mutual

/-- Where every replacement is of one-byte characters, the width counts characters. -/
theorem flatLength_eq (doc : Doc) (hfrcd : doc.forced = false)
    (h : ∀ replacement ∈ doc.replacements, ∀ c ∈ replacement, c.utf8Size = 1) : doc.flatLength = doc.flat.length := by
  match doc with
  | .text text => rfl
  | .requiredLine => rfl
  | .line flat hard =>
    obtain rfl : hard = false := hfrcd
    exact byteLength_eq (h flat (mem_singleton_self flat))
  | .concat parts => exact flatLengthAll_eq parts hfrcd h
  | .indent inner => exact flatLength_eq inner hfrcd h
  | .group inner => exact flatLength_eq inner hfrcd h

theorem flatLengthAll_eq (parts : List Doc) (hfrcd : Doc.forcedAny parts = false)
    (h : ∀ replacement ∈ Doc.replacementsAll parts, ∀ c ∈ replacement, c.utf8Size = 1) :
    Doc.flatLengthAll parts = (Doc.flatAll parts).length := by
  match parts with
  | [] => rfl
  | part :: parts =>
    obtain ⟨hpart, hpts⟩ := Bool.or_eq_false_iff.mp hfrcd
    rw [Doc.flatLengthAll, Doc.flatAll, length_append,
      flatLength_eq part hpart fun replacement hmem => h replacement (mem_append_left _ hmem),
      flatLengthAll_eq parts hpts fun replacement hmem => h replacement (mem_append_right _ hmem)]

end

/-- The calls of `write` that a call makes, with what they are given. -/
inductive Reaches (first : Printer) (doc : Doc) : Printer → Doc → Nat → Bool → Prop where
  | start : Reaches first doc first doc 0 false
  | part {p : Printer} {before after : List Doc} {part : Doc} {depth : Nat} {flat : Bool} :
    Reaches first doc p (.concat (before ++ part :: after)) depth flat →
      Reaches first doc (p.writeLoop before depth flat) part depth flat
  | indent {p : Printer} {inner : Doc} {depth : Nat} {flat : Bool} :
    Reaches first doc p (.indent inner) depth flat → Reaches first doc p inner (depth + 1) flat
  | group {p : Printer} {inner : Doc} {depth : Nat} {flat : Bool} :
    Reaches first doc p (.group inner) depth flat → Reaches first doc p inner depth (p.fits inner flat)

theorem forcedAny_append :
    Doc.forcedAny (before ++ after) = (Doc.forcedAny before || Doc.forcedAny after) := by
  induction before with
  | nil => rfl
  | cons part before ih => rw [cons_append, Doc.forcedAny, Doc.forcedAny, ih, Bool.or_assoc]

theorem flatLengthAll_append :
    Doc.flatLengthAll (before ++ after) = Doc.flatLengthAll before + Doc.flatLengthAll after := by
  induction before with
  | nil => exact (Nat.zero_add _).symm
  | cons part before ih => rw [cons_append, Doc.flatLengthAll, Doc.flatLengthAll, ih, Nat.add_assoc]

/-- A group that is written flat has no forced break and fits where it starts. -/
theorem fits_spec {p : Printer} {inner : Doc} {flat : Bool}
    (h : flat = true → inner.forced = false ∧ inner.flatLength ≤ p.remaining) (hfits : p.fits inner flat = true) :
    inner.forced = false ∧ inner.flatLength ≤ p.remaining := by
  rcases (Bool.or_eq_true _ _).mp hfits with hflat | hsome
  · exact h hflat
  · rw [flatWidth_eq] at hsome
    split at hsome
    · cases hsome
    · rename_i hnot
      obtain ⟨hfrcd, hle⟩ := not_or.mp hnot
      exact ⟨eq_false_of_ne_true hfrcd, Nat.le_of_not_lt hle⟩

theorem Reaches.flat {first p : Printer} {doc inner : Doc} {flat : Bool}
    (h : Reaches first doc p inner depth flat) (hflat : flat = true) :
    inner.forced = false ∧ inner.flatLength ≤ p.remaining := by
  induction h with
  | start => cases hflat
  | @part p before after part depth flat _ ih =>
    subst hflat
    obtain ⟨hfrcd, hle⟩ := ih rfl
    rw [Doc.forced, forcedAny_append, Doc.forcedAny] at hfrcd
    obtain ⟨hbef, haft⟩ := Bool.or_eq_false_iff.mp hfrcd
    rw [Doc.flatLength, flatLengthAll_append, Doc.flatLengthAll] at hle
    have hwrs := writeLoop_flat p before depth hbef
    refine ⟨(Bool.or_eq_false_iff.mp haft).1, ?_⟩
    have hcrs := hwrs.cursor
    have hwidth := hwrs.width
    unfold remaining cursor at *
    omega
  | indent _ ih => exact ih hflat
  | group _ ih => exact fits_spec ih hflat

theorem Reaches.placed {first p : Printer} {doc inner : Doc} {depth : Nat} {flat : Bool}
    (h : Reaches first doc p inner depth flat) (hfst : Placed first) : Placed p := by
  induction h with
  | start => exact hfst
  | part _ ih => exact ih.writeLoop _ _ _
  | indent _ ih => exact ih
  | group _ ih => exact ih

theorem Reaches.width {first p : Printer} {doc inner : Doc} {flat : Bool}
    (h : Reaches first doc p inner depth flat) : p.width = first.width := by
  induction h with
  | start => rfl
  | part _ ih => exact (writeLoop_puts _ _ _ _).width.trans ih
  | indent _ ih => exact ih
  | group _ ih => exact ih

/-- A group written flat: it has no forced break, its rendering goes behind the indentation that is due, and it
ends within the width wherever its line does. -/
structure FlatGroup (p : Printer) (inner : Doc) (depth : Nat) : Prop where
  forced : inner.forced = false
  output : (p.write inner depth true).output =
    p.output ++ if inner.flat = [] then [] else List.replicate p.pendingIndent ' ' ++ inner.flat
  fits : inner.flat ≠ [] → p.cursor + inner.flat.length ≤ p.width
  newlines : (∀ replacement ∈ inner.replacements, ∀ c ∈ replacement, isNewline c = false) →
    ∀ c ∈ inner.flat, isNewline c = false

end Printer

/-- The printer puts out the texts of a document, in order, up to the newlines at the end, and between them only
line breaks, indentation and replacements of soft lines; it writes flat only groups without forced breaks that fit
into what is left of the line that the output ends with; and `flat_width` is the width of the rendering without line
breaks where there is one within the budget. -/
theorem print_layout (doc : Doc) (width indent : Nat) (newline : List Char) :
    (∃ pieces : List Piece, pieces.filterMap Piece.text? = doc.texts ∧
      (pieces.filterMap Piece.flat?).Sublist doc.replacements ∧
      print doc width indent newline = (pieces.flatMap (Piece.chars newline)).rdropWhile isNewline ++ newline) ∧
    (∀ p inner depth flat, Printer.Reaches (.start width indent newline) doc p (.group inner) depth flat →
      (p.fits inner flat = true → Printer.FlatGroup p inner depth) ∧
      (inner.forced = true → p.fits inner flat = false) ∧
      p.width = width ∧ (newline.getLast? = some '\n' → p.cursor = p.line.length)) ∧
    ∀ (part : Doc) (budget : Nat),
      flatWidth part budget = (if part.forced ∨ budget < part.flatLength then none else some part.flatLength) ∧
      (part.forced = false → (∀ replacement ∈ part.replacements, ∀ c ∈ replacement, c.utf8Size = 1) →
        part.flatLength = part.flat.length) := by
  refine ⟨?_, fun p inner depth flat hrch => ?_, fun part budget =>
    ⟨flatWidth_eq part budget, fun hfrcd h => Printer.flatLength_eq part hfrcd h⟩⟩
  · obtain ⟨pieces, hout, htexts, hflats⟩ := (Printer.write_puts (.start width indent newline) doc 0 false).output
    refine ⟨pieces, htexts, hflats, ?_⟩
    unfold print
    rw [hout]
    rfl
  · have hflat (hfits : p.fits inner flat = true) : inner.forced = false ∧ inner.flatLength ≤ p.remaining :=
      Printer.fits_spec (fun hflat => hrch.flat hflat) hfits
    refine ⟨fun hfits => ?_, fun hfrcd => ?_, hrch.width, fun hnewline => (hrch.placed (.start hnewline)).cursor⟩
    · obtain ⟨hfrcd, hle⟩ := hflat hfits
      have hwrs := Printer.write_flat p inner depth hfrcd
      refine ⟨hfrcd, hwrs.output, fun hsome => ?_, fun hclean c hc => ?_⟩
      · have hpos := List.length_pos_of_ne_nil hsome
        have hlen := hwrs.length.trans hle
        unfold Printer.remaining at hlen
        unfold Printer.cursor
        omega
      · rcases Printer.flat_rendered inner hfrcd c hc with hnot | ⟨replacement, hmem, hc⟩
        · exact hnot
        · exact hclean replacement hmem c hc
    · by_contra hfits
      rw [(hflat (eq_true_of_ne_false hfits)).1] at hfrcd
      cases hfrcd

/-- A text loses the newlines at its end, and a document too wide for the budget has no width. -/
theorem print_drops : ¬ "a\n\n".toList <:+: print (.text "a\n\n".toList) 80 4 "\n".toList ∧
    flatWidth (.text "ab".toList) 1 = none ∧ Doc.forced (.text "ab".toList) = false := by
  decide

end Kagari.Format
