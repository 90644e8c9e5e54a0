import Kagari.Lib.Cursor
import Kagari.Lib.Pieces
import Kagari.Runtime.Numeric
import Kagari.Syntax.Lexer

/-!
# Traversals of strings

`gc/string_iter.rs`. One cursor serves seven kinds of traversal: a byte offset, and whether the traversal began and is
done, with the number of items so far. An advance (`gc/iter.rs`) previews an item and the cursor after it, publishes
the item, and then takes the cursor.

`StringTraversal.reference` says what each kind yields. Through any advances, those that fail among them, exactly
this comes (`string_traversals`).
-/

namespace Kagari.Runtime

open Lib Lib.Text Lib.Pieces List
open Syntax (isWhitespace)

/-- A string of a heap; an allocation has less than 2^63 bytes. -/
structure HeapString where
  chars : List Char
  fits : size chars < 2 ^ 63

inductive PendingItem (H : Type) where
  | value (value : Value H)
  | text (text : List Char)
  | pair (first second : Value H)

/-- An error of the runtime, or a panic. -/
inductive Fault where
  | error (error : RuntimeError)
  | panic

structure StringCursor where
  position : Nat
  started : Bool
  done : Bool
  yielded : Nat

structure StringTraversal (H : Type) where
  kind : StringIterKind
  separator : Option (Value H)
  limit : BitVec 64
  cursor : StringCursor

/-- `&text[..n]`. -/
def upTo (text : List Char) (n : Nat) : Except Fault (List Char) :=
  match takeBytes text n with
  | some part => .ok part
  | none => .error .panic

namespace StringTraversal

variable {H R : Type}

def new (kind : StringIterKind) (fields : List (Value H)) : Except RuntimeError (StringTraversal H) :=
  let cursor := ⟨0, false, false, 0⟩
  match kind, fields with
  | .split, [.str _, .str separator] => .ok ⟨kind, some (.str separator), BitVec.allOnes 64, cursor⟩
  | .splitN, [.str _, .u64 count, .str separator] => .ok ⟨kind, some (.str separator), count, cursor⟩
  | .whitespace, [.str _] | .lines, [.str _] | .chars, [.str _] | .bytes, [.str _] | .charIndices, [.str _] =>
    .ok ⟨kind, none, BitVec.allOnes 64, cursor⟩
  | _, _ => .error (moduleValidation "invalid string traversal arguments")

def separatorText (t : StringTraversal H) (string : H → Option HeapString) : Except Fault (List Char) :=
  match t.separator with
  | some (.str id) => match string id with
    | some separator => .ok separator.chars
    | none => .error (.error (moduleValidation "invalid string separator"))
  | none => .ok []
  | _ => .error (.error (moduleValidation "invalid string separator"))

/-- The match of `preview` on the kinds that yield pieces. -/
def piece (t : StringTraversal H) (separator text tail : List Char) :
    Except Fault (Option (List Char) × StringCursor) :=
  let cursor := t.cursor
  match t.kind with
  | .chars | .bytes | .charIndices => .error .panic
  | .split | .splitN =>
    if cursor.yielded = t.limit.toNat - 1 then .ok (some tail, { cursor with done := true })
    else if separator = [] then
      if !cursor.started then .ok (some [], { cursor with started := true })
      else match tail.head? with
        | some ch =>
          (upTo tail ch.utf8Size).map fun part => (some part, { cursor with position := cursor.position + ch.utf8Size })
        | none => .ok (some [], { cursor with done := true })
    else match findText separator tail with
      | some offset =>
        (upTo tail offset).map fun part =>
          (some part, { cursor with position := cursor.position + offset + size separator })
      | none => .ok (some tail, { cursor with done := true })
  | .whitespace =>
    let tail := tail.dropWhile isWhitespace
    if tail = [] then .ok (none, { cursor with done := true })
    else
      let length := (findChar isWhitespace tail).getD (size tail)
      (upTo tail length).map fun part => (some part, { cursor with position := size text - size tail + length })
  | .lines =>
    if tail = [] then .ok (none, { cursor with done := true })
    else match findChar (· = '\n') tail with
      | some offset =>
        (upTo tail offset).map fun line =>
          (some (stripReturn line), { cursor with position := cursor.position + offset + 1 })
      | none => .ok (some tail, { cursor with done := true })

/-- The cursor never passes the limit, so `yielded` does not overflow; `room` is whether a string of a length can
be reserved. -/
def preview (t : StringTraversal H) (string : H → Option HeapString) (text : List Char) (room : Nat → Bool) :
    Except Fault (Option (PendingItem H) × StringCursor) :=
  match t.separatorText string with
  | .error fault => .error fault
  | .ok separator =>
    let cursor := t.cursor
    if cursor.done ∨ cursor.yielded = t.limit.toNat then .ok (none, { cursor with done := true })
    else
      let start := cursor.position
      if t.kind = .bytes then
        match (text.flatMap String.utf8EncodeChar)[start]? with
        | some byte => .ok (some (.value (.i64 (BitVec.ofNat 64 byte.toNat))),
          { cursor with position := start + 1, yielded := cursor.yielded + 1 })
        | none => .ok (none, { cursor with done := true })
      else match dropBytes text start with
        | none => .error (.error (moduleValidation "invalid string cursor"))
        | some tail =>
          if t.kind = .chars ∨ t.kind = .charIndices then
            match tail.head? with
            | some ch =>
              let item := if t.kind = .chars then .value (.char ch) else .pair (.u64 (BitVec.ofNat 64 start)) (.char ch)
              .ok (some item, { cursor with position := start + ch.utf8Size, yielded := cursor.yielded + 1 })
            | none => .ok (none, { cursor with done := true })
          else match t.piece separator text tail with
            | .error fault => .error fault
            | .ok (none, cursor) => .ok (none, cursor)
            | .ok (some part, cursor) =>
              if !room (size part) then .error (.error (resourceLimit "string iterator item"))
              else .ok (some (.text part), { cursor with yielded := cursor.yielded + 1 })

/-- The preview, with the traversal that takes its cursor. -/
def previewed (string : H → Option HeapString) (text : HeapString) (room : Nat → Bool) (t : StringTraversal H) :
    Except Fault (Option (PendingItem H) × StringTraversal H) :=
  (t.preview string text.chars room).map fun (item, cursor) => (item, { t with cursor })

/-- `advance_iter_with` on a string: what makes a value of the item and hands it out is `publish`. -/
def advance (string : H → Option HeapString) (text : HeapString) (room : Nat → Bool)
    (publish : Option (PendingItem H) → Except Fault R) (t : StringTraversal H) : Except Fault R × StringTraversal H :=
  Cursor.advance (previewed string text room) publish t

/-! ## What a traversal yields -/

/-- The items of a text. -/
def reference (kind : StringIterKind) (separator : List Char) (limit : Nat) (text : List Char) : List (PendingItem H) :=
  match kind with
  | .split => (split separator text).map .text
  | .splitN => (limited separator limit (split separator text)).map .text
  | .whitespace => (words isWhitespace text).map .text
  | .lines => (lines text).map .text
  | .chars => text.map fun ch => .value (.char ch)
  | .charIndices =>
    text.mapIdx fun i ch => .pair (.u64 (BitVec.ofNat 64 (size (text.take i)))) (.char ch)
  | .bytes => (text.flatMap String.utf8EncodeChar).map fun byte => .value (.i64 (BitVec.ofNat 64 byte.toNat))

theorem upTo_size (left right : List Char) : upTo (left ++ right) (size left) = .ok left := by
  unfold upTo
  rw [takeBytes_size]

/-! ## Steps of a traversal -/

section Steps

variable {string : H → Option HeapString} {text : HeapString} {t : StringTraversal H} {c c' : StringCursor}
  {separator left tail part : List Char}

/-- Memory that is always there. -/
def granted : Nat → Bool := fun _ => true

theorem previewed_done (hsep : t.separatorText string = .ok separator)
    (h : c.done = true ∨ c.yielded = t.limit.toNat) :
    previewed string text granted { t with cursor := c } =
      .ok (none, { t with cursor := { c with done := true } }) := by
  have hown : { t with cursor := c }.separatorText string = .ok separator := hsep
  unfold previewed preview
  rw [hown]
  dsimp only
  rw [if_pos h]
  rfl

/-- A text kind at a character boundary does what `piece` says. -/
theorem previewed_piece (hsep : t.separatorText string = .ok separator) (hdone : c.done = false)
    (hlim : c.yielded ≠ t.limit.toNat) (htext : text.chars = left ++ tail) (hposition : c.position = size left)
    (hkind : t.kind ≠ .bytes ∧ t.kind ≠ .chars ∧ t.kind ≠ .charIndices) {found : Option (List Char)}
    (hpce : { t with cursor := c }.piece separator text.chars tail = .ok (found, c')) :
    previewed string text granted { t with cursor := c } =
      .ok (found.map .text, { t with cursor :=
        if found.isSome then { c' with yielded := c'.yielded + 1 } else c' }) := by
  have hown : { t with cursor := c }.separatorText string = .ok separator := hsep
  have htail : dropBytes text.chars c.position = some tail := by rw [htext, hposition, dropBytes_size]
  unfold previewed preview
  rw [hown]
  dsimp only
  rw [if_neg (by simp [hdone, hlim]), if_neg hkind.1, htail]
  dsimp only
  rw [if_neg (by simp [hkind]), hpce]
  cases found <;> rfl

/-- Where the items end. -/
def Over (string : H → Option HeapString) (text : HeapString) (t s : StringTraversal H) : Prop :=
  ∃ c c', s = { t with cursor := c } ∧ c'.done = true ∧
    previewed string text granted s = .ok (none, { t with cursor := c' })

theorem over_done (hsep : t.separatorText string = .ok separator)
    (h : c.done = true ∨ c.yielded = t.limit.toNat) :
    Over string text t { t with cursor := c } :=
  ⟨c, { c with done := true }, rfl, rfl, previewed_done hsep h⟩

/-- Once nothing came, nothing comes. -/
theorem drained (hsep : t.separatorText string = .ok separator) :
    Cursor.Drained (previewed string text granted) (Over string text t) := by
  rintro s ⟨c, c', rfl, hdone, hpreview⟩
  exact ⟨_, hpreview, over_done hsep (.inl hdone)⟩

/-! ### Splitting -/

/-- The pieces that are left. -/
def rest (separator : List Char) (started : Bool) (tail : List Char) : List (List Char) :=
  if separator = [] ∧ started then (tail.map fun ch => [ch]) ++ [[]] else split separator tail

theorem intercalate_rest (separator : List Char) (started : Bool) (tail : List Char) :
    separator.intercalate (rest separator started tail) = tail := by
  unfold rest
  split
  next h =>
    rw [h.1]
    simp [intercalate_nil_eq, ← flatMap_def]
  next => exact intercalate_split separator tail

theorem rest_ne_nil (separator : List Char) (started : Bool) (tail : List Char) : rest separator started tail ≠ [] := by
  unfold rest split
  split
  · simp
  · split
    · simp
    · exact pieces_ne_nil _ _

/-- At the limit all that is left is taken. -/
theorem piece_last (hkind : t.kind = .split ∨ t.kind = .splitN) (hlim : c.yielded = t.limit.toNat - 1) :
    { t with cursor := c }.piece separator text.chars tail = .ok (some tail, { c with done := true }) := by
  unfold piece
  rcases hkind with hkind | hkind <;> simp only [hkind] <;> rw [if_pos hlim]

/-- Before the limit the next piece is taken: the last one ends the traversal. -/
theorem piece_split (hkind : t.kind = .split ∨ t.kind = .splitN) (htext : text.chars = left ++ tail)
    (hposition : c.position = size left) (hdone : c.done = false) (hlim : c.yielded ≠ t.limit.toNat - 1)
    {ps : List (List Char)} (hps : rest separator c.started tail = part :: ps) :
    ∃ c', { t with cursor := c }.piece separator text.chars tail = .ok (some part, c') ∧ c'.yielded = c.yielded ∧
      ∃ left' tail', text.chars = left' ++ tail' ∧ c'.position = size left' ∧
        (c'.done = true ∧ ps = [] ∨ c'.done = false ∧ rest separator c'.started tail' = ps) := by
  have hpce : { t with cursor := c }.piece separator text.chars tail =
      if separator = [] then
        if !c.started then .ok (some [], { c with started := true })
        else match tail.head? with
          | some ch =>
            (upTo tail ch.utf8Size).map fun part => (some part, { c with position := c.position + ch.utf8Size })
          | none => .ok (some [], { c with done := true })
      else match findText separator tail with
        | some offset =>
          (upTo tail offset).map fun part => (some part, { c with position := c.position + offset + size separator })
        | none => .ok (some tail, { c with done := true }) := by
    unfold piece
    rcases hkind with hkind | hkind <;> simp only [hkind] <;> rw [if_neg hlim]
  rw [hpce]
  by_cases hemp : separator = []
  · subst hemp
    rw [if_pos rfl]
    cases hstarted : c.started with
    | false =>
      simp only [rest, split, hstarted, Bool.false_eq_true, and_false, if_false, if_true, cons_append] at hps
      obtain ⟨rfl, rfl⟩ := cons.inj hps
      exact ⟨_, rfl, rfl, left, tail, htext, hposition, .inr ⟨hdone, by simp [rest]⟩⟩
    | true =>
      simp only [rest, hstarted, and_self, if_true] at hps
      cases tail with
      | nil =>
        obtain ⟨rfl, rfl⟩ := cons.inj hps
        exact ⟨_, rfl, rfl, left, _, htext, hposition, .inl ⟨rfl, rfl⟩⟩
      | cons ch tail =>
        obtain ⟨rfl, rfl⟩ := cons.inj hps
        have hpart : upTo (ch :: tail) ch.utf8Size = .ok [ch] := upTo_size [ch] tail
        simp only [head?_cons, hpart]
        refine ⟨_, rfl, rfl, left ++ [ch], tail, by simp [htext], ?_, .inr ⟨hdone, by simp [rest]⟩⟩
        simp [hposition]
  · rw [if_neg hemp]
    simp only [rest, split, hemp, false_and, if_false] at hps
    cases hfind : findText separator tail with
    | none =>
      rw [pieces_none hemp (Option.map_eq_none_iff.1 hfind)] at hps
      obtain ⟨rfl, rfl⟩ := cons.inj hps
      exact ⟨_, rfl, rfl, left, _, htext, hposition, .inl ⟨rfl, rfl⟩⟩
    | some offset =>
      obtain ⟨before, after, hcut, htail, rfl⟩ := findText_some hfind
      rw [pieces_some hemp hcut] at hps
      obtain ⟨rfl, rfl⟩ := cons.inj hps
      have hpart : upTo tail (size before) = .ok before := by rw [htail, upTo_size]
      simp only [hpart]
      refine ⟨_, rfl, rfl, left ++ (before ++ separator), after, ?_, ?_,
        .inr ⟨hdone, by simp [rest, split, hemp]⟩⟩
      · simp [htext, htail]
      · simp [hposition]
        omega

theorem yields_split (hsep : t.separatorText string = .ok separator)
    (hkind : t.kind = .split ∨ t.kind = .splitN) (n : Nat) : ∀ {left tail : List Char} {c : StringCursor},
      text.chars = left ++ tail → c.position = size left → c.done = false → c.yielded + (n + 1) = t.limit.toNat →
      Cursor.Yields (previewed string text granted) (Over string text t) { t with cursor := c }
        ((limited separator (n + 1) (rest separator c.started tail)).map .text) := by
  have hoths : t.kind ≠ .bytes ∧ t.kind ≠ .chars ∧ t.kind ≠ .charIndices := by
    rcases hkind with hkind | hkind <;> simp [hkind]
  induction n with
  | zero =>
    intro left tail c htext hposition hdone hyielded
    rw [limited_one (rest_ne_nil _ _ _), intercalate_rest]
    have hpce : { t with cursor := c }.piece separator text.chars tail = .ok (some tail, { c with done := true }) :=
      piece_last hkind (by omega)
    exact ⟨_, previewed_piece hsep hdone (by omega) htext hposition hoths hpce,
      over_done hsep (.inl rfl)⟩
  | succ n ih =>
    intro left tail c htext hposition hdone hyielded
    obtain ⟨part, ps, hps⟩ := exists_cons_of_ne_nil (rest_ne_nil separator c.started tail)
    obtain ⟨c', hpce, hsame, left', tail', htext', hposition', hnext⟩ :=
      piece_split hkind htext hposition hdone (by omega) hps
    rw [hps, limited_cons]
    refine ⟨_, previewed_piece hsep hdone (by omega) htext hposition hoths hpce, ?_⟩
    rcases hnext with ⟨hend, rfl⟩ | ⟨hlive, rfl⟩
    · rw [limited_nil]
      exact over_done hsep (.inl hend)
    · exact ih (c := { c' with yielded := c'.yielded + 1 }) htext' hposition' hlive (by dsimp only; omega)

/-! ### Words, lines and characters -/

theorem length_le_size (text : List Char) : text.length ≤ size text := by
  induction text with
  | nil => exact Nat.le_refl _
  | cons ch text ih =>
    have hpos := ch.utf8Size_pos
    rw [length_cons, size_cons]
    omega

/-- What `piece` does to what is left, where `pieces` are to come: nothing is left, or the last piece is taken, or the
next one. -/
def Takes (text : HeapString) (t : StringTraversal H) (separator : List Char) (pieces : List Char → List (List Char))
    (tail : List Char) (c : StringCursor) : Prop :=
  ({ t with cursor := c }.piece separator text.chars tail = .ok (none, { c with done := true }) ∧ pieces tail = []) ∨
  ({ t with cursor := c }.piece separator text.chars tail = .ok (some tail, { c with done := true }) ∧
    pieces tail = [tail]) ∨
  ∃ part left' tail', { t with cursor := c }.piece separator text.chars tail =
      .ok (some part, { c with position := size left' }) ∧
    pieces tail = part :: pieces tail' ∧ text.chars = left' ++ tail' ∧ tail'.length < tail.length

theorem yields_takes (hsep : t.separatorText string = .ok separator)
    (hkind : t.kind ≠ .bytes ∧ t.kind ≠ .chars ∧ t.kind ≠ .charIndices) (hlim : t.limit = BitVec.allOnes 64)
    {pieces : List Char → List (List Char)}
    (htakes : ∀ left tail c, text.chars = left ++ tail → c.position = size left →
      Takes text t separator pieces tail c) : ∀ (n : Nat) {left tail : List Char} {c : StringCursor},
      tail.length = n → text.chars = left ++ tail → c.position = size left → c.done = false →
      c.yielded + tail.length ≤ text.chars.length →
      Cursor.Yields (previewed string text granted) (Over string text t) { t with cursor := c }
        ((pieces tail).map .text) := by
  intro n
  induction n using Nat.strong_induction_on with
  | _ n ih =>
    intro left tail c hn htext hposition hdone hyielded
    have hfits := text.fits
    have hsize := length_le_size text.chars
    have hbelow : c.yielded ≠ t.limit.toNat := by
      rw [hlim, BitVec.toNat_allOnes]
      omega
    rcases htakes left tail c htext hposition with
      ⟨hpce, hpcs⟩ | ⟨hpce, hpcs⟩ | ⟨part, left', tail', hpce, hpcs, htext', hlength⟩
    · rw [hpcs]
      exact ⟨c, _, rfl, rfl, previewed_piece hsep hdone hbelow htext hposition hkind hpce⟩
    · rw [hpcs]
      exact ⟨_, previewed_piece hsep hdone hbelow htext hposition hkind hpce, over_done hsep (.inl rfl)⟩
    · rw [hpcs]
      refine ⟨_, previewed_piece hsep hdone hbelow htext hposition hkind hpce, ?_⟩
      exact ih tail'.length (by omega) (c := ⟨size left', c.started, c.done, c.yielded + 1⟩) rfl htext' rfl hdone
        (by dsimp only; omega)

/-- A word is taken, or only spaces are left. -/
theorem takes_words (hkind : t.kind = .whitespace) (htext : text.chars = left ++ tail) :
    Takes text t separator (words isWhitespace) tail c := by
  have hspaces := takeWhile_append_dropWhile (p := isWhitespace) (l := tail)
  have hwords := words_spaces (p := isWhitespace) tail
  unfold Takes piece
  simp only [hkind]
  cases hskip : tail.dropWhile isWhitespace with
  | nil =>
    rw [hskip] at hwords
    exact .inl ⟨by simp, hwords.symm⟩
  | cons ch after =>
    have hhead := head?_dropWhile_not isWhitespace tail
    rw [hskip] at hhead hspaces hwords
    simp only [head?_cons] at hhead
    refine .inr (.inr ?_)
    rw [if_neg (cons_ne_nil _ _)]
    -- the word ends at the next space, or with the text
    obtain ⟨word, tail', hcut, hlength, hword, hrest⟩ : ∃ word tail', ch :: after = word ++ tail' ∧
        (findChar isWhitespace (ch :: after)).getD (size (ch :: after)) = size word ∧
        (∀ a ∈ word, isWhitespace a = false) ∧ ∀ a ∈ tail'.head?, isWhitespace a = true := by
      cases hfind : findChar isWhitespace (ch :: after) with
      | none =>
        exact ⟨ch :: after, [], (append_nil _).symm, rfl, findChar_none hfind, by simp⟩
      | some n =>
        obtain ⟨before, space, behind, hspl, rfl, hspace, hbef⟩ := findChar_some hfind
        exact ⟨before, space :: behind, hspl, rfl, hbef, by simpa using hspace⟩
    have hne : word ≠ [] := by
      rintro rfl
      rw [nil_append] at hcut
      rw [← hcut] at hrest
      have := hrest ch rfl
      simp_all
    have hposition : size text.chars - size (ch :: after) + size word =
        size (left ++ (tail.takeWhile isWhitespace ++ word)) := by
      have htail := congrArg size hspaces
      rw [htext]
      simp only [size_append] at htail ⊢
      omega
    refine ⟨word, left ++ (tail.takeWhile isWhitespace ++ word), tail', ?_, ?_, ?_, ?_⟩
    · rw [hlength, hposition, hcut, upTo_size]
      rfl
    · rw [← hwords, hcut, words_word hword hne hrest]
    · rw [htext, append_assoc, append_assoc, ← hcut, hspaces]
    · have hlen := congrArg List.length hcut
      have htail := congrArg List.length hspaces
      have hpos := length_pos_iff.2 hne
      simp only [length_append] at hlen htail
      omega

/-- A line is taken, the last one, or nothing is left. -/
theorem takes_lines (hkind : t.kind = .lines) (htext : text.chars = left ++ tail) (hposition : c.position = size left) :
    Takes text t separator lines tail c := by
  unfold Takes piece
  simp only [hkind]
  by_cases hemp : tail = []
  · subst hemp
    exact .inl ⟨rfl, lines_nil⟩
  · rw [if_neg hemp]
    right
    cases hfind : findChar (· = '\n') tail with
    | none =>
      refine .inl ⟨rfl, lines_last (fun hmem => ?_) hemp⟩
      have := findChar_none hfind _ hmem
      simp at this
    | some n =>
      obtain ⟨line, ch, tail', rfl, rfl, hch, hline⟩ := findChar_some hfind
      obtain rfl : ch = '\n' := by simpa using hch
      refine .inr ⟨stripReturn line, left ++ (line ++ ['\n']), tail', ?_, lines_break fun hmem => ?_, ?_, ?_⟩
      · dsimp only
        rw [upTo_size]
        simp [hposition]
        rfl
      · have := hline _ hmem
        simp at this
      · simp [htext]
      · simp
        omega

/-- The item that a character at an offset gives. -/
def charItem (kind : StringIterKind) (position : Nat) (ch : Char) : PendingItem H :=
  if kind = .chars then .value (.char ch) else .pair (.u64 (BitVec.ofNat 64 position)) (.char ch)

theorem previewed_char (hsep : t.separatorText string = .ok separator) (hdone : c.done = false)
    (hlim : c.yielded ≠ t.limit.toNat) (htext : text.chars = left ++ tail) (hposition : c.position = size left)
    (hkind : t.kind = .chars ∨ t.kind = .charIndices) :
    previewed string text granted { t with cursor := c } = match tail.head? with
      | some ch => .ok (some (charItem t.kind (size left) ch), { t with cursor :=
        { c with position := size left + ch.utf8Size, yielded := c.yielded + 1 } })
      | none => .ok (none, { t with cursor := { c with done := true } }) := by
  have hown : { t with cursor := c }.separatorText string = .ok separator := hsep
  have htail : dropBytes text.chars c.position = some tail := by rw [htext, hposition, dropBytes_size]
  have hbyt : t.kind ≠ .bytes := by rcases hkind with hkind | hkind <;> simp [hkind]
  unfold previewed preview
  rw [hown]
  dsimp only
  rw [if_neg (by simp [hdone, hlim]), if_neg hbyt, htail]
  dsimp only
  rw [if_pos hkind, hposition]
  cases tail <;> rfl

theorem yields_chars (hsep : t.separatorText string = .ok separator)
    (hkind : t.kind = .chars ∨ t.kind = .charIndices) (hlim : t.limit = BitVec.allOnes 64) :
    ∀ (tail : List Char) {left : List Char} {c : StringCursor},
      text.chars = left ++ tail → c.position = size left → c.done = false →
      c.yielded + tail.length ≤ text.chars.length →
      Cursor.Yields (previewed string text granted) (Over string text t) { t with cursor := c }
        (tail.mapIdx fun i ch => charItem t.kind (size (left ++ tail.take i)) ch) := by
  intro tail
  have hfits := text.fits
  have hsize := length_le_size text.chars
  have hbelow : ∀ n ≤ text.chars.length, n ≠ t.limit.toNat := by
    intro n hn
    rw [hlim, BitVec.toNat_allOnes]
    omega
  induction tail with
  | nil =>
    intro left c htext hposition hdone hyielded
    exact ⟨c, _, rfl, rfl, previewed_char hsep hdone (hbelow _ hyielded) htext hposition hkind⟩
  | cons ch tail ih =>
    intro left c htext hposition hdone hyielded
    rw [length_cons] at hyielded
    rw [mapIdx_cons, take_zero, append_nil]
    refine ⟨_, previewed_char hsep hdone (hbelow _ (by omega)) htext hposition hkind, ?_⟩
    have htext' : text.chars = (left ++ [ch]) ++ tail := by simp [htext]
    have hrest := ih (c := ⟨size left + ch.utf8Size, c.started, c.done, c.yielded + 1⟩) htext' (by simp) hdone
      (by dsimp only; omega)
    have hits : ∀ i, size (left ++ (ch :: tail).take (i + 1)) = size (left ++ [ch] ++ tail.take i) := by simp
    simp only [hits]
    exact hrest

theorem length_bytes (text : List Char) : (text.flatMap String.utf8EncodeChar).length = size text := by
  induction text with
  | nil => rfl
  | cons ch text ih => rw [flatMap_cons, length_append, ih, String.length_utf8EncodeChar, size_cons]

theorem yields_bytes (hsep : t.separatorText string = .ok separator) (hkind : t.kind = .bytes)
    (hlim : t.limit = BitVec.allOnes 64) : ∀ (bytes : List UInt8) {c : StringCursor},
      (text.chars.flatMap String.utf8EncodeChar).drop c.position = bytes → c.done = false →
      c.yielded = c.position → c.position ≤ size text.chars →
      Cursor.Yields (previewed string text granted) (Over string text t) { t with cursor := c }
        (bytes.map fun byte => .value (.i64 (BitVec.ofNat 64 byte.toNat))) := by
  intro bytes
  have hfits := text.fits
  have hpreview : ∀ c : StringCursor, c.done = false → c.yielded = c.position → c.position ≤ size text.chars →
      previewed string text granted { t with cursor := c } =
        match (text.chars.flatMap String.utf8EncodeChar)[c.position]? with
        | some byte => .ok (some (.value (.i64 (BitVec.ofNat 64 byte.toNat))), { t with cursor :=
          { c with position := c.position + 1, yielded := c.yielded + 1 } })
        | none => .ok (none, { t with cursor := { c with done := true } }) := by
    intro c hdone hyielded hposition
    have hown : { t with cursor := c }.separatorText string = .ok separator := hsep
    have hbelow : c.yielded ≠ t.limit.toNat := by
      rw [hlim, BitVec.toNat_allOnes]
      omega
    unfold previewed preview
    rw [hown]
    dsimp only
    rw [if_neg (by simp [hdone, hbelow]), if_pos hkind]
    cases (text.chars.flatMap String.utf8EncodeChar)[c.position]? <;> rfl
  induction bytes with
  | nil =>
    intro c hdrop hdone hyielded hposition
    have hend := hpreview c hdone hyielded hposition
    rw [List.getElem?_eq_none (List.drop_eq_nil_iff.1 hdrop)] at hend
    exact ⟨c, _, rfl, rfl, hend⟩
  | cons byte bytes ih =>
    intro c hdrop hdone hyielded hposition
    have hbyte : (text.chars.flatMap String.utf8EncodeChar)[c.position]? = some byte := by
      rw [← Nat.add_zero c.position, ← List.getElem?_drop, hdrop]
      rfl
    have hinsd := (List.getElem?_eq_some_iff.1 hbyte).1
    rw [length_bytes] at hinsd
    have hnext := hpreview c hdone hyielded hposition
    rw [hbyte] at hnext
    refine ⟨_, hnext, ih ?_ hdone (congrArg (· + 1) hyielded) hinsd⟩
    rw [← List.drop_drop, hdrop]
    rfl

end Steps

/-! ## Memory that is refused -/

/-- A piece that cannot be copied. -/
def refused (room : Nat → Bool) : Option (PendingItem H) → Bool
  | some (.text part) => !room (size part)
  | _ => false

/-- What is published, once there is room for it. -/
def publishing (room : Nat → Bool) (publish : Option (PendingItem H) → Except Fault R) (item : Option (PendingItem H)) :
    Except Fault R :=
  if refused room item then .error (.error (resourceLimit "string iterator item")) else publish item

variable (string : H → Option HeapString)

theorem previewed_room (text : HeapString) (room : Nat → Bool)
    (t : StringTraversal H) : previewed string text room t = match previewed string text granted t with
      | .error fault => .error fault
      | .ok (item, next) =>
        if refused room item then .error (.error (resourceLimit "string iterator item")) else .ok (item, next) := by
  unfold previewed preview
  cases t.separatorText string with
  | error fault => rfl
  | ok separator =>
    dsimp only
    split
    · rfl
    · split
      · split <;> rfl
      · split
        · rfl
        · split
          · split
            · by_cases hkind : t.kind = .chars <;> simp [hkind, refused, Except.map]
            · rfl
          · split
            · rfl
            · rfl
            next part cursor hpce =>
              cases hroom : room (size part) <;> simp [granted, refused, hroom, Except.map]

/-- To refuse the memory of an item is to fail its publication. -/
theorem advance_room (text : HeapString) (room : Nat → Bool)
    (publish : Option (PendingItem H) → Except Fault R) :
    advance string text room publish = Cursor.advance (previewed string text granted) (publishing room publish) := by
  funext t
  unfold advance Cursor.advance
  rw [previewed_room]
  cases previewed string text granted t with
  | error fault => rfl
  | ok result =>
    obtain ⟨item, next⟩ := result
    unfold publishing
    cases hrefd : refused room item <;> simp [hrefd]

/-! ## Whole traversals -/

section Whole

variable {string : H → Option HeapString} {text : HeapString} {t : StringTraversal H} {kind : StringIterKind}
  {fields : List (Value H)} {separator : List Char}

theorem new_ok (h : new kind fields = .ok t) : t.kind = kind ∧ t.cursor = ⟨0, false, false, 0⟩ ∧
    (kind ≠ .splitN → t.limit = BitVec.allOnes 64) := by
  unfold new at h
  split at h <;> cases h <;> simp

theorem yields_reference (hnew : new kind fields = .ok t) (hsep : t.separatorText string = .ok separator) :
    Cursor.Yields (previewed string text granted) (Over string text t) t
      (reference kind separator t.limit.toNat text.chars) := by
  obtain ⟨hkind, hcrs, hlim⟩ := new_ok hnew
  have hst : t = { t with cursor := ⟨0, false, false, 0⟩ } := by rw [← hcrs]
  have hfits := text.fits
  have hsize := length_le_size text.chars
  have htail : text.chars = [] ++ text.chars := rfl
  subst hkind
  have hspl : t.kind = .split ∨ t.kind = .splitN → ∀ n, n = t.limit.toNat →
      Cursor.Yields (previewed string text granted) (Over string text t) t
        ((limited separator n (split separator text.chars)).map .text) := by
    intro hkind n hn
    cases n with
    | zero =>
      rw [hst]
      exact over_done hsep (.inr hn)
    | succ n =>
      have hyld := yields_split hsep hkind n (c := ⟨0, false, false, 0⟩) htail rfl rfl
        (by dsimp only; omega)
      rw [← hst] at hyld
      simpa [rest] using hyld
  have htakes : ∀ {pieces : List Char → List (List Char)}, t.limit = BitVec.allOnes 64 →
      (t.kind ≠ .bytes ∧ t.kind ≠ .chars ∧ t.kind ≠ .charIndices) →
      (∀ left tail c, text.chars = left ++ tail → c.position = size left → Takes text t separator pieces tail c) →
      Cursor.Yields (previewed string text granted) (Over string text t) t ((pieces text.chars).map .text) := by
    intro pieces hall hoths htakes
    have hyld := yields_takes hsep hoths hall htakes text.chars.length
      (c := ⟨0, false, false, 0⟩) rfl htail rfl rfl (by dsimp only; omega)
    rwa [← hst] at hyld
  have hchars : t.limit = BitVec.allOnes 64 → (t.kind = .chars ∨ t.kind = .charIndices) →
      Cursor.Yields (previewed string text granted) (Over string text t) t
        (text.chars.mapIdx fun i ch => charItem t.kind (size (text.chars.take i)) ch) := by
    intro hall hkind
    have hyld := yields_chars hsep hkind hall text.chars (c := ⟨0, false, false, 0⟩) htail rfl rfl
      (by dsimp only; omega)
    rwa [← hst] at hyld
  unfold reference
  cases hkind : t.kind with
  | split =>
    have hall := hlim (by simp [hkind])
    have hpcs := length_split separator text.chars
    have hyld := hspl (.inl hkind) _ rfl
    rwa [limited_all _ (by rw [hall, BitVec.toNat_allOnes]; omega)] at hyld
  | splitN => exact hspl (.inr hkind) _ rfl
  | whitespace => exact htakes (hlim (by simp [hkind])) (by simp [hkind]) fun _ _ _ htext _ => takes_words hkind htext
  | lines => exact htakes (hlim (by simp [hkind])) (by simp [hkind]) fun _ _ _ => takes_lines hkind
  | chars =>
    have hyld := hchars (hlim (by simp [hkind])) (.inl hkind)
    have hits : (text.chars.mapIdx fun _ ch => (.value (.char ch) : PendingItem H)) =
        text.chars.map fun ch => .value (.char ch) := by
      apply ext_getElem <;> simp
    simpa [charItem, hkind, hits] using hyld
  | charIndices =>
    have hyld := hchars (hlim (by simp [hkind])) (.inr hkind)
    simpa [charItem, hkind] using hyld
  | bytes =>
    have hyld := yields_bytes hsep hkind (hlim (by simp [hkind])) (text.chars.flatMap String.utf8EncodeChar)
      (c := ⟨0, false, false, 0⟩) rfl rfl rfl (Nat.zero_le _)
    rwa [← hst] at hyld

/-- A traversal whose cursor is between characters. -/
def Placed (text : HeapString) (t s : StringTraversal H) : Prop :=
  ∃ c, s = { t with cursor := c } ∧ Boundary text.chars c.position

theorem placed_previewed (hsep : t.separatorText string = .ok separator) (hkind : t.kind ≠ .bytes)
    {s next : StringTraversal H} {item : Option (PendingItem H)} (h : Placed text t s)
    (hpreview : previewed string text granted s = .ok (item, next)) : Placed text t next := by
  obtain ⟨c, rfl, left, tail, htext, hposition⟩ := h
  -- whatever the preview is known to give leaves the cursor between characters
  have hleads : ∀ {item' : Option (PendingItem H)} {c' : StringCursor},
      previewed string text granted { t with cursor := c } = .ok (item', { t with cursor := c' }) →
      Boundary text.chars c'.position → Placed text t next := by
    intro item' c' hkn hbdry
    rw [hkn] at hpreview
    obtain ⟨-, rfl⟩ := Prod.mk.inj (Except.ok.inj hpreview)
    exact ⟨c', rfl, hbdry⟩
  have hsame : Boundary text.chars c.position := ⟨left, tail, htext, hposition⟩
  by_cases hover : c.done = true ∨ c.yielded = t.limit.toNat
  · exact hleads (previewed_done hsep hover) hsame
  · obtain ⟨hlive, hlim⟩ := not_or.1 hover
    have hdone : c.done = false := Bool.not_eq_true _ ▸ hlive
    have hpcs : (t.kind ≠ .bytes ∧ t.kind ≠ .chars ∧ t.kind ≠ .charIndices) →
        ∀ {found : Option (List Char)} {c' : StringCursor},
          { t with cursor := c }.piece separator text.chars tail = .ok (found, c') →
          Boundary text.chars c'.position → Placed text t next := by
      intro hoths found c' hpce hbdry
      refine hleads (previewed_piece hsep hdone hlim htext hposition hoths hpce) ?_
      split <;> exact hbdry
    have htakes : (t.kind ≠ .bytes ∧ t.kind ≠ .chars ∧ t.kind ≠ .charIndices) →
        ∀ {pieces : List Char → List (List Char)}, Takes text t separator pieces tail c → Placed text t next := by
      rintro hoths pieces (⟨hpce, -⟩ | ⟨hpce, -⟩ | ⟨part, left', tail', hpce, -, htext', -⟩)
      · exact hpcs hoths hpce hsame
      · exact hpcs hoths hpce hsame
      · exact hpcs hoths hpce ⟨left', tail', htext', rfl⟩
    have hspl : t.kind = .split ∨ t.kind = .splitN → Placed text t next := by
      intro hkind
      have hoths : t.kind ≠ .bytes ∧ t.kind ≠ .chars ∧ t.kind ≠ .charIndices := by
        rcases hkind with hkind | hkind <;> simp [hkind]
      by_cases hlast : c.yielded = t.limit.toNat - 1
      · exact hpcs hoths (piece_last hkind hlast) hsame
      · obtain ⟨part, ps, hps⟩ := exists_cons_of_ne_nil (rest_ne_nil separator c.started tail)
        obtain ⟨c', hpce, -, left', tail', htext', hposition', -⟩ :=
          piece_split hkind htext hposition hdone hlast hps
        exact hpcs hoths hpce ⟨left', tail', htext', hposition'⟩
    have hchars : t.kind = .chars ∨ t.kind = .charIndices → Placed text t next := by
      intro hkind
      have hchar := previewed_char hsep hdone hlim htext hposition hkind
      cases tail with
      | nil => exact hleads hchar hsame
      | cons ch tail => exact hleads hchar ⟨left ++ [ch], tail, by simp [htext], by simp⟩
    cases hcase : t.kind with
    | split => exact hspl (.inl hcase)
    | splitN => exact hspl (.inr hcase)
    | whitespace => exact htakes (by simp [hcase]) (takes_words hcase htext)
    | lines => exact htakes (by simp [hcase]) (takes_lines hcase htext hposition)
    | chars => exact hchars (.inl hcase)
    | charIndices => exact hchars (.inr hcase)
    | bytes => exact absurd hcase hkind

end Whole

/-- Through any advances each item of the text comes until it is published, and then nothing; what fails is the
memory or the publication, and the cursor of a text kind stays between characters. The pieces of a split give the text
back. -/
theorem string_traversals (string : H → Option HeapString) (kind : StringIterKind) (fields : List (Value H))
    (t : StringTraversal H) (text : HeapString) (separator : List Char) (hnew : new kind fields = .ok t)
    (hseparator : t.separatorText string = .ok separator)
    (calls : List ((Nat → Bool) × (Option (PendingItem H) → Except Fault R))) :
    let run := Cursor.attempts (calls.map fun (room, publish) => advance string text room publish) t
    run.1 = Cursor.serve (reference kind separator t.limit.toNat text.chars)
      (calls.map fun (room, publish) => publishing room publish) ∧
    (kind ≠ .bytes → Boundary text.chars run.2.cursor.position) ∧
    separator.intercalate (split separator text.chars) = text.chars ∧
    (separator ≠ [] → ∀ piece ∈ split separator text.chars, ¬ separator <:+: piece) ∧
    ∀ n, separator.intercalate (limited separator (n + 1) (split separator text.chars)) = text.chars := by
  have hcalls : (calls.map fun (room, publish) => advance string text room publish) =
      (calls.map fun (room, publish) => publishing room publish).map
        (Cursor.advance (previewed string text granted)) := by
    rw [List.map_map]
    exact List.map_congr_left fun call _ => advance_room string text call.1 call.2
  obtain ⟨hkind, hcrs, -⟩ := new_ok hnew
  dsimp only
  rw [hcalls]
  refine ⟨Cursor.attempts_of_yields (drained hseparator) _ (yields_reference hnew hseparator), fun hbyt => ?_,
    intercalate_split _ _, fun hne piece hmem => ?_, fun n => ?_⟩
  · have hst : Placed text t t := ⟨t.cursor, rfl, [], text.chars, rfl, by rw [hcrs]; rfl⟩
    obtain ⟨c, hc, hbdry⟩ := Cursor.attempts_keep (P := Placed text t)
      (fun s item next => placed_previewed hseparator (by rwa [hkind])) _ hst
    rw [hc]
    exact hbdry
  · unfold split at hmem
    rw [if_neg hne] at hmem
    exact (pieces_spec hne text.chars).2 piece hmem
  · rw [intercalate_limited, intercalate_split]

/-- A split of `a,,b` in two, whose first publication fails. -/
theorem string_traversals_comma : let text : HeapString := ⟨['a', ',', ',', 'b'], by decide⟩
    let comma : HeapString := ⟨[','], by decide⟩
    let calls : List ((Nat → Bool) × (Option (PendingItem Bool) → Except Fault (Option (PendingItem Bool)))) :=
      [(granted, fun _ => .error .panic), (granted, .ok), (granted, .ok), (granted, .ok)]
    (Cursor.attempts (calls.map fun (room, publish) => advance (fun id => some (if id then comma else text)) text room
      publish) ⟨.splitN, some (.str true), 2, ⟨0, false, false, 0⟩⟩).1 =
        [.error .panic, .ok (some (.text ['a'])), .ok (some (.text [',', 'b'])), .ok none] := by
  intro text comma calls
  have hpcs : split [','] text.chars = [['a'], [], ['b']] := by
    simp [split, pieces, cut, text]
  have h := string_traversals (fun id => some (if id then comma else text)) .splitN [.str false, .u64 2, .str true]
    ⟨.splitN, some (.str true), 2, ⟨0, false, false, 0⟩⟩ text [','] rfl rfl calls
  refine h.1.trans ?_
  unfold reference
  rw [hpcs]
  rfl

end StringTraversal

end Kagari.Runtime
