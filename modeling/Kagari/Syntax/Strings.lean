import Kagari.Syntax.Token

/-!
# Strings

`kagari-syntax/src/lexer/string.rs`: the boundaries of string literals, and the tokens of one with
holes. `none` is a slice that is not between characters, or a loop that has not ended within its bound.
-/

namespace Kagari.Syntax

open Lib.Text

/-- The loop of `skip_escape` behind `u{`: up to a brace, but not over a quote. -/
def skipBraced (offset : Nat) : List Char → Cursor
  | [] => ⟨offset, []⟩
  | ch :: rest =>
    if ch = '"' then ⟨offset, ch :: rest⟩
    else if ch = '}' then ⟨offset + 1, rest⟩
    else skipBraced (offset + ch.utf8Size) rest

/-- `skip_escape`, behind the backslash. -/
def skipEscape : Cursor → Cursor
  | ⟨offset, []⟩ => ⟨offset, []⟩
  | ⟨offset, 'u' :: '{' :: rest⟩ => skipBraced (offset + 2) rest
  | ⟨offset, ch :: rest⟩ => ⟨offset + ch.utf8Size, rest⟩

/-- `push_text`. -/
def pushText (input : List Char) (start stop : Nat) : Option (List Token) :=
  if start = stop then some []
  else
    (slice input start stop).map fun text =>
      [⟨if isOk (decodeStringFragment text) then .formatText else .unknown, start, stop⟩]

/-- `is_hole_name`: a name that is no keyword. -/
def isHoleName (name : List Char) : Bool :=
  (name.head?.any fun ch => ch = '_' || isAsciiAlphabetic ch) &&
    name.all (fun ch => ch = '_' || isAsciiAlphanumeric ch) && identifierKind name = .ident

/-- The tokens between the braces of a hole. -/
def holeTokens (content : List Char) (start stop : Nat) : List Token :=
  let (name, debug) : List Char × Bool :=
    match stripEnd [':', '?'] content with
    | some name => (name, true)
    | none => (content, false)
  if isHoleName name then
    ⟨.ident, start, start + size name⟩ ::
      if debug then [⟨.colon, stop - 2, stop - 1⟩, ⟨.question, stop - 1, stop⟩] else []
  else if start ≠ stop then [⟨.unknown, start, stop⟩]
  else []

/-- `scan_hole`, behind the opening brace. -/
def scanHole (input : List Char) (start : Nat) (cursor : Cursor) : Option Scan :=
  let (_, cursor) := scanWhile (fun ch => !(ch = '}' || ch = '"')) behind start cursor.offset cursor.rest
  let stop := cursor.position input
  (slice input start stop).map fun content =>
    match cursor.rest with
    | '}' :: rest =>
      (holeTokens content start stop ++ [⟨.formatClose, stop, stop + 1⟩], ⟨cursor.offset + 1, rest⟩)
    | _ => (holeTokens content start stop, cursor)

/-- The tokens of a cooked string, behind its quote. -/
structure FormatScan where
  tokens : List Token
  hasHole : Bool
  closed : Bool
  stop : Nat
  cursor : Cursor

/-- The loop of `scan` over a cooked string. -/
def scanFormat (input : List Char) : Nat → Nat → Cursor → Option FormatScan
  | _, textStart, ⟨offset, []⟩ =>
    (pushText input textStart (size input)).map fun text =>
      ⟨text, false, false, size input, ⟨offset, []⟩⟩
  | 0, _, ⟨_, _ :: _⟩ => none
  | bound + 1, textStart, ⟨index, ch :: rest⟩ =>
    if ch = '"' then
      (pushText input textStart index).map fun text =>
        ⟨text ++ [⟨.formatEnd, index, index + 1⟩], false, true, index + 1, ⟨index + 1, rest⟩⟩
    else if ch = '\\' then scanFormat input bound textStart (skipEscape ⟨index + 1, rest⟩)
    else if (ch = '{' ∨ ch = '}') ∧ rest.head? = some ch then
      scanFormat input bound textStart ⟨index + 2, rest.tail⟩
    else if ch = '{' then do
      let text ← pushText input textStart index
      let (hole, cursor) ← scanHole input (index + 1) ⟨index + 1, rest⟩
      let after ← scanFormat input bound (cursor.position input) cursor
      some { after with
        tokens := text ++ ⟨.formatOpen, index, index + 1⟩ :: (hole ++ after.tokens)
        hasHole := true }
    else scanFormat input bound textStart ⟨index + ch.utf8Size, rest⟩

/-- A cooked string without holes is one token. -/
def formatTokens (start opening : Nat) (scan : FormatScan) : List Token :=
  if scan.hasHole then ⟨.formatStart, start, opening⟩ :: scan.tokens
  else
    let valid := scan.closed && scan.tokens.all fun token => token.kind ≠ .unknown
    [⟨if valid then .string else .unknown, start, scan.stop⟩]

/-- `while chars.peek().is_some_and(|(index, _)| *index < limit) { chars.next(); }`. -/
def advanceTo (limit : Nat) : Nat → List Char → Cursor
  | offset, [] => ⟨offset, []⟩
  | offset, ch :: rest =>
    if offset < limit then advanceTo limit (offset + ch.utf8Size) rest else ⟨offset, ch :: rest⟩

/-- The kind of a closed raw or byte string. -/
def plainKind (byte : Bool) (text : List Char) : TokenKind :=
  if byte then (if isOk (decodeByteStringLiteral text) then .byteString else .unknown)
  else (if isOk (decodeStringLiteral text) then .string else .unknown)

/-- `scan_plain`, behind the opening delimiter. -/
def scanPlain (input : List Char) (start : Nat) (delimiter : StringDelimiter) (byte : Bool) :
    Nat → Cursor → Option Scan
  | _, ⟨offset, []⟩ => some ([⟨.unknown, start, size input⟩], ⟨offset, []⟩)
  | 0, ⟨_, _ :: _⟩ => none
  | bound + 1, ⟨index, ch :: rest⟩ =>
    if ch = '\\' ∧ delimiter = .cooked then
      scanPlain input start delimiter byte bound (skipEscape ⟨index + 1, rest⟩)
    else if ch ≠ '"' then scanPlain input start delimiter byte bound ⟨index + ch.utf8Size, rest⟩
    else
      match delimiter.closingLen (ch :: rest) with
      | none => scanPlain input start delimiter byte bound ⟨index + 1, rest⟩
      | some length =>
        (slice input start (index + length)).map fun text =>
          ([⟨plainKind byte text, start, index + length⟩], advanceTo (index + length) (index + 1) rest)

/-- An invalid raw opener is consumed alone. -/
def scanOpener (input : List Char) (start : Nat) (byte : Bool) (text : List Char) : Scan :=
  let skipped := if byte then 2 else 1
  let (_, cursor) := scanWhile (fun ch => ch = '#') behind start (start + skipped) (text.drop skipped)
  ([⟨.unknown, start, cursor.position input⟩], cursor)

/-- A string with a `b` before it, or not. -/
def scanDelimited (input : List Char) (start : Nat) (byte : Bool) (text : List Char) : Option Scan :=
  let before := if byte then 1 else 0
  match StringDelimiter.opening (text.drop before) with
  | .ok (some (delimiter, length)) =>
    let opening := start + (length + before)
    let cursor := advanceTo opening start text
    if byte ∨ delimiter ≠ .cooked then
      scanPlain input start delimiter byte cursor.rest.length cursor
    else
      (scanFormat input cursor.rest.length opening cursor).map fun scan =>
        (formatTokens start opening scan, scan.cursor)
  | _ => some (scanOpener input start byte text)

/-- `scan`, at the first character of a string. -/
def scanString (input : List Char) (start : Nat) (text : List Char) : Option Scan :=
  scanDelimited input start (text.head? = some 'b') text

end Kagari.Syntax
