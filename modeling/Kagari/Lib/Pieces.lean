import Kagari.Lib.Text
import Mathlib.Data.List.Infix
import Mathlib.Data.List.TakeWhile

/-!
# Pieces of a list

A list is cut at the first occurrence of a separator (`cut`), again and again (`split`): the pieces joined by the
separator give the list back (`intercalate_split`), and none of them contains it. The empty separator stands before
and after every element. `limited` joins what comes behind a number of pieces. `words` and `lines` are cut at
elements with a property.
-/

namespace Lib.Pieces

variable {α : Type}

theorem intercalate_cons {sep : List α} (piece : List α) {rest : List (List α)} (h : rest ≠ []) :
    sep.intercalate (piece :: rest) = piece ++ (sep ++ sep.intercalate rest) := by
  rw [List.intercalate_cons_of_ne_nil h, List.append_assoc]

theorem intercalate_nil_eq (parts : List (List α)) : ([] : List α).intercalate parts = parts.flatten := by
  induction parts with
  | nil => rfl
  | cons part parts ih =>
    cases parts with
    | nil => simp
    | cons next parts =>
      rw [intercalate_cons _ (List.cons_ne_nil _ _), ih]
      rfl

section Split

variable [DecidableEq α] {sep text before after : List α}

/-- What stands before and after the first occurrence. -/
def cut (sep : List α) : List α → Option (List α × List α)
  | [] => if sep = [] then some ([], []) else none
  | a :: rest =>
    if sep <+: a :: rest then some ([], (a :: rest).drop sep.length)
    else (cut sep rest).map fun (before, after) => (a :: before, after)

theorem cut_some (h : cut sep text = some (before, after)) : text = before ++ (sep ++ after) := by
  induction text generalizing before with
  | nil =>
    unfold cut at h
    split at h
    · cases h
      simp_all
    · cases h
  | cons a rest ih =>
    unfold cut at h
    split at h
    next hpre =>
      cases h
      exact List.prefix_iff_eq_append.1 hpre |>.symm
    next =>
      obtain ⟨⟨before', after'⟩, hcut, heq⟩ := Option.map_eq_some_iff.1 h
      cases heq
      rw [ih hcut]
      rfl

/-- Where a list is not cut, there is no separator. -/
theorem cut_none (h : cut sep text = none) : ¬ sep <:+: text := by
  induction text with
  | nil =>
    unfold cut at h
    split at h
    · cases h
    · rwa [List.infix_nil]
  | cons a rest ih =>
    unfold cut at h
    split at h
    next => cases h
    next hpre =>
      rw [List.infix_cons_iff]
      rintro (hst | hlat)
      · exact hpre hst
      · exact ih (Option.map_eq_none_iff.1 h) hlat

/-- There is none before the first. -/
theorem cut_first (hsep : sep ≠ []) (h : cut sep text = some (before, after)) : ¬ sep <:+: before := by
  induction text generalizing before with
  | nil =>
    unfold cut at h
    rw [if_neg hsep] at h
    cases h
  | cons a rest ih =>
    have htext := cut_some h
    unfold cut at h
    split at h
    next =>
      cases h
      rwa [List.infix_nil]
    next hpre =>
      obtain ⟨⟨before', after'⟩, hcut, heq⟩ := Option.map_eq_some_iff.1 h
      cases heq
      rw [List.infix_cons_iff]
      rintro (hst | hlat)
      · refine hpre (hst.trans ?_)
        rw [htext]
        exact List.prefix_append _ _
      · exact ih hcut hlat

/-- The pieces between the occurrences of a separator that is not empty. -/
def pieces (sep text : List α) : List (List α) :=
  if _hsep : sep = [] then [text]
  else match _hcut : cut sep text with
    | none => [text]
    | some (before, after) => before :: pieces sep after
termination_by text.length
decreasing_by
  have hlen := List.length_pos_iff.2 _hsep
  rw [cut_some _hcut, List.length_append, List.length_append]
  omega

def split (sep text : List α) : List (List α) :=
  if sep = [] then [] :: (text.map fun a => [a]) ++ [[]] else pieces sep text

theorem pieces_none (hsep : sep ≠ []) (h : cut sep text = none) : pieces sep text = [text] := by
  unfold pieces
  rw [dif_neg hsep]
  split
  · rfl
  · simp_all

theorem pieces_some (hsep : sep ≠ []) (h : cut sep text = some (before, after)) :
    pieces sep text = before :: pieces sep after := by
  rw [pieces, dif_neg hsep]
  split
  · simp_all
  · simp_all

theorem pieces_ne_nil (sep text : List α) : pieces sep text ≠ [] := by
  unfold pieces
  split
  · exact List.cons_ne_nil _ _
  · split <;> exact List.cons_ne_nil _ _

/-- The pieces give the list back, and none contains the separator. -/
theorem pieces_spec (hsep : sep ≠ []) (text : List α) :
    sep.intercalate (pieces sep text) = text ∧ ∀ piece ∈ pieces sep text, ¬ sep <:+: piece := by
  induction hlen : text.length using Nat.strong_induction_on generalizing text with
  | _ n ih =>
    subst hlen
    cases hcut : cut sep text with
    | none =>
      rw [pieces_none hsep hcut, List.intercalate_singleton]
      exact ⟨rfl, fun piece hmem => List.mem_singleton.1 hmem ▸ cut_none hcut⟩
    | some parts =>
      obtain ⟨before, after⟩ := parts
      have htext := cut_some hcut
      have hpos := List.length_pos_iff.2 hsep
      obtain ⟨hjoin, hclean⟩ := ih after.length (by rw [htext]; simp; omega) after rfl
      rw [pieces_some hsep hcut, intercalate_cons _ (pieces_ne_nil sep after), hjoin]
      refine ⟨htext.symm, fun piece hmem => ?_⟩
      rcases List.mem_cons.1 hmem with rfl | hmem
      · exact cut_first hsep hcut
      · exact hclean piece hmem

theorem intercalate_split (sep text : List α) : sep.intercalate (split sep text) = text := by
  unfold split
  split
  next hsep =>
    subst hsep
    simp [intercalate_nil_eq, ← List.flatMap_def]
  next hsep => exact (pieces_spec hsep text).1

theorem length_pieces (hsep : sep ≠ []) (text : List α) : (pieces sep text).length ≤ text.length + 1 := by
  induction hlen : text.length using Nat.strong_induction_on generalizing text with
  | _ n ih =>
    subst hlen
    cases hcut : cut sep text with
    | none =>
      rw [pieces_none hsep hcut, List.length_singleton]
      omega
    | some parts =>
      obtain ⟨before, after⟩ := parts
      have htext := congrArg List.length (cut_some hcut)
      have hpos := List.length_pos_iff.2 hsep
      rw [List.length_append, List.length_append] at htext
      have haft := ih after.length (by omega) after rfl
      rw [pieces_some hsep hcut, List.length_cons]
      omega

theorem length_split (sep text : List α) : (split sep text).length ≤ text.length + 2 := by
  unfold split
  split
  · simp
  next hsep => exact Nat.le_succ_of_le (length_pieces hsep text)

end Split

/-! ## Where something is found in a text -/

variable {p : Char → Bool} {text : List Char}

section Find

open Text List

/-- The bytes before the first occurrence of a text. -/
def findText (pattern text : List Char) : Option Nat := (cut pattern text).map fun (before, _) => size before

/-- The bytes before the first character with a property. -/
def findChar (p : Char → Bool) (text : List Char) : Option Nat :=
  if text.any p then some (size (text.takeWhile fun ch => !p ch)) else none

theorem findText_some {pattern text : List Char} {n : Nat} (h : findText pattern text = some n) :
    ∃ before after, cut pattern text = some (before, after) ∧ text = before ++ (pattern ++ after) ∧
      n = size before := by
  obtain ⟨⟨before, after⟩, hcut, rfl⟩ := Option.map_eq_some_iff.1 h
  exact ⟨before, after, hcut, cut_some hcut, rfl⟩

/-- A text that has a character with a property, cut at the first. -/
theorem findChar_some {n : Nat} (h : findChar p text = some n) :
    ∃ before ch after, text = before ++ ch :: after ∧ n = size before ∧ p ch = true ∧ ∀ c ∈ before, p c = false := by
  unfold findChar at h
  split at h
  next hany =>
    cases hrest : text.dropWhile fun ch => !p ch with
    | nil =>
      rw [dropWhile_eq_nil_iff] at hrest
      obtain ⟨ch, hmem, hp⟩ := any_eq_true.1 hany
      have := hrest ch hmem
      rw [hp] at this
      cases this
    | cons ch after =>
      have hhead := head?_dropWhile_not (fun ch => !p ch) text
      rw [hrest] at hhead
      refine ⟨text.takeWhile fun ch => !p ch, ch, after, ?_, (Option.some.inj h).symm, by simpa using hhead, ?_⟩
      · rw [← hrest, takeWhile_append_dropWhile]
      · intro c hc
        simpa using mem_takeWhile_imp hc
  next => cases h

theorem findChar_none (h : findChar p text = none) :
    ∀ c ∈ text, p c = false := by
  unfold findChar at h
  split at h
  next => cases h
  next hany => simpa using hany

end Find

/-! ## A limit -/

section Limited

variable {sep piece : List α} {ps : List (List α)}

/-- The pieces before the last of a number, and what is left, joined. -/
def limited (sep : List α) (n : Nat) (ps : List (List α)) : List (List α) :=
  ps.take (n - 1) ++ if n = 0 ∨ ps.length < n then [] else [sep.intercalate (ps.drop (n - 1))]

@[simp] theorem limited_nil (n : Nat) : limited sep n [] = [] := by
  unfold limited
  rw [List.take_nil, List.nil_append, if_pos]
  simp only [List.length_nil]
  omega

theorem limited_one (h : ps ≠ []) : limited sep 1 ps = [sep.intercalate ps] := by
  have hlen := List.length_pos_iff.2 h
  unfold limited
  rw [if_neg (by omega)]
  rfl

theorem limited_cons (n : Nat) : limited sep (n + 2) (piece :: ps) = piece :: limited sep (n + 1) ps := by
  unfold limited
  simp only [List.length_cons, Nat.add_lt_add_iff_right, Nat.succ_ne_zero, false_or]
  rfl

/-- A limit that is not reached. -/
theorem limited_all (n : Nat) (h : ps.length ≤ n) : limited sep n ps = ps := by
  unfold limited
  by_cases hfull : ps.length = n ∧ n ≠ 0
  · obtain ⟨rfl, hne⟩ := hfull
    rw [if_neg (by omega)]
    have hdrop : ps.drop (ps.length - 1) = [ps.getLast (List.length_pos_iff.1 (by omega))] :=
      List.drop_length_sub_one (List.length_pos_iff.1 (by omega))
    rw [hdrop, List.intercalate_singleton, ← hdrop, List.take_append_drop]
  · rw [if_pos (by omega), List.append_nil, List.take_of_length_le (by omega)]

/-- What is left by the limit is in the last piece. -/
theorem intercalate_limited (n : Nat) : ∀ ps : List (List α),
    sep.intercalate (limited sep (n + 1) ps) = sep.intercalate ps := by
  induction n with
  | zero =>
    intro ps
    cases ps with
    | nil => simp
    | cons piece ps => rw [limited_one (List.cons_ne_nil _ _), List.intercalate_singleton]
  | succ n ih =>
    intro ps
    cases ps with
    | nil => simp
    | cons piece ps =>
      rw [limited_cons]
      cases ps with
      | nil => simp
      | cons next ps =>
        have hne : limited sep (n + 1) (next :: ps) ≠ [] := by
          cases n with
          | zero => rw [limited_one (List.cons_ne_nil _ _)]; exact List.cons_ne_nil _ _
          | succ n => rw [limited_cons]; exact List.cons_ne_nil _ _
        rw [List.intercalate_cons_of_ne_nil hne, ih, List.intercalate_cons_of_ne_nil (List.cons_ne_nil _ _)]

end Limited

/-! ## Words and lines -/

section Words

variable {p : α → Bool} {word rest : List α}

/-- What stands between elements with a property, without the empty pieces. -/
def words (p : α → Bool) (text : List α) : List (List α) := (text.splitOnP p).filter (· ≠ [])

theorem words_space {a : α} (h : p a = true) : words p (a :: rest) = words p rest := by
  unfold words
  rw [List.splitOnP_cons_eq_if_modifyHead, if_pos h]
  rfl

theorem words_spaces (text : List α) : words p (text.dropWhile p) = words p text := by
  induction text with
  | nil => rfl
  | cons a rest ih =>
    cases h : p a with
    | false => rw [List.dropWhile_cons_of_neg (by rw [h]; exact Bool.false_ne_true)]
    | true => rw [List.dropWhile_cons_of_pos h, ih, words_space h]

theorem words_word (hword : ∀ a ∈ word, p a = false) (hne : word ≠ [])
    (hrest : ∀ a ∈ rest.head?, p a = true) : words p (word ++ rest) = word :: words p rest := by
  unfold words
  cases rest with
  | nil =>
    rw [List.append_nil, List.splitOnP_eq_singleton hword]
    simp [hne]
  | cons a rest =>
    have ha := hrest a rfl
    rw [List.splitOnP_append_cons_of_forall_mem hword a ha, List.splitOnP_cons_eq_if_modifyHead, if_pos ha]
    simp [hne]

end Words

section Lines

/-- `line.strip_suffix('\r')` where it ends so. -/
def stripReturn (line : List Char) : List Char := if line.getLast? = some '\r' then line.dropLast else line

/-- A last line need not end with a line break; only a return before one belongs to it. -/
def lines (text : List Char) : List (List Char) :=
  let parts := text.splitOn '\n'
  parts.dropLast.map stripReturn ++ parts.getLast?.toList.filter (· ≠ [])

theorem lines_break {line rest : List Char} (h : '\n' ∉ line) :
    lines (line ++ '\n' :: rest) = stripReturn line :: lines rest := by
  have hne := List.splitOn_ne_nil '\n' rest
  unfold lines
  rw [List.splitOn_append_cons_self_of_not_mem h]
  dsimp only
  rw [List.dropLast_cons_of_ne_nil hne, List.getLast?_cons, List.getLast?_eq_some_getLast hne]
  rfl

theorem lines_last {line : List Char} (h : '\n' ∉ line) (hne : line ≠ []) : lines line = [line] := by
  unfold lines
  rw [List.splitOn_eq_singleton h]
  simp [hne]

@[simp] theorem lines_nil : lines [] = [] := rfl

end Lines

end Lib.Pieces
