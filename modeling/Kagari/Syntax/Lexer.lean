import Kagari.Syntax.Strings

/-!
# The lexer

`kagari-syntax/src/lexer.rs`. Each iteration of `lex` scans what begins at the cursor; the characters
behind it are the text that follows in the source. Malformed input becomes `unknown` tokens.

The token of `lex` is fresh, so no poll finds it cancelled. `lex_with_cancellation` returns tokens only
when its last poll, and so every poll, has not found it cancelled: these are the tokens of `lex`.
-/

namespace Kagari.Syntax

open Lib.Text

/-- `char::is_whitespace`: the Unicode property White_Space. -/
def isWhitespace (ch : Char) : Bool :=
  let code := ch.toNat
  decide ((0x9 ≤ code ∧ code ≤ 0xd) ∨ code = 0x20 ∨ code = 0x85 ∨ code = 0xa0 ∨ code = 0x1680 ∨
    (0x2000 ≤ code ∧ code ≤ 0x200a) ∨ code = 0x2028 ∨ code = 0x2029 ∨ code = 0x202f ∨
    code = 0x205f ∨ code = 0x3000)

def digitOrLine (ch : Char) : Bool := isAsciiDigit ch || ch = '_'

def wordCharacter (ch : Char) : Bool := isAsciiAlphanumeric ch || ch = '_'

/-- A raw string, or the hashes of one. -/
def opensRaw (rest : List Char) : Bool := rest.head? = some '#' || rest.head? = some '"'

/-- A string begins here. -/
def opensString (ch : Char) (rest : List Char) : Bool :=
  ch = '"' || (ch = 'r' && opensRaw rest) ||
    (ch = 'b' && (rest.head? = some '"' || (rest.head? = some 'r' && opensRaw rest.tail)))

/-! ## Operators -/

/-- An operator of one character, or of two. -/
def oneOrTwo (second : Char) (long short : TokenKind) (index : Nat) : List Char → Scan
  | [] => emit short index 1 []
  | next :: rest => if next = second then emit long index 2 rest else emit short index 1 (next :: rest)

def scanDot (index : Nat) : List Char → Scan
  | '.' :: '=' :: rest => emit .dotDotEq index 3 rest
  | '.' :: rest => emit .dotDot index 2 rest
  | rest => emit .dot index 1 rest

def scanEq (index : Nat) : List Char → Scan
  | '=' :: '=' :: rest => emit .identityEq index 3 rest
  | '=' :: rest => emit .eqEq index 2 rest
  | '>' :: rest => emit .fatArrow index 2 rest
  | rest => emit .eq index 1 rest

def scanMinus (index : Nat) : List Char → Scan
  | '>' :: rest => emit .arrow index 2 rest
  | rest => oneOrTwo '=' .minusEq .minus index rest

def scanBang (index : Nat) : List Char → Scan
  | '=' :: '=' :: rest => emit .identityNotEq index 3 rest
  | rest => oneOrTwo '=' .notEq .bang index rest

/-- `&`, `|` and `^`: assignments, and two of the first two. -/
def bitwiseKind (ch : Char) : List Char → TokenKind × Nat
  | '=' :: _ => (if ch = '&' then .ampEq else if ch = '|' then .pipeEq else .caretEq, 1)
  | next :: _ =>
    if ch ≠ '^' ∧ next = ch then (if ch = '&' then .ampAmp else .pipePipe, 1)
    else (if ch = '&' then .amp else if ch = '|' then .pipe else .caret, 0)
  | [] => (if ch = '&' then .amp else if ch = '|' then .pipe else .caret, 0)

def scanBitwise (input : List Char) (index : Nat) (ch : Char) (rest : List Char) : Scan :=
  let (kind, more) := bitwiseKind ch rest
  let cursor : Cursor := ⟨index + 1 + more, rest.drop more⟩
  ([⟨kind, index, cursor.position input⟩], cursor)

/-! ## Comments -/

/-- The loop of a block comment: how deep it is at its end, and where that is. -/
def scanBlock : Nat → Nat → Nat → List Char → Nat × Nat × Cursor
  | depth, stop, offset, [] => (depth, stop, ⟨offset, []⟩)
  | depth, _, offset, '/' :: '*' :: rest => scanBlock (depth + 1) (offset + 2) (offset + 2) rest
  | depth, _, offset, '*' :: '/' :: rest =>
    if depth = 1 then (0, offset + 2, ⟨offset + 2, rest⟩)
    else scanBlock (depth - 1) (offset + 2) (offset + 2) rest
  | depth, _, offset, ch :: rest => scanBlock depth (behind offset ch) (behind offset ch) rest

def scanSlash (index : Nat) : List Char → Scan
  | '/' :: rest =>
    let (stop, cursor) :=
      scanWhile (fun ch => !(ch = '\r' || ch = '\n')) behind (index + 1) (index + 1) ('/' :: rest)
    ([⟨.lineComment, index, stop⟩], cursor)
  | '*' :: rest =>
    let (depth, stop, cursor) := scanBlock 1 (index + 2) (index + 2) rest
    ([⟨if depth = 0 then .blockComment else .unknown, index, stop⟩], cursor)
  | rest => oneOrTwo '=' .slashEq .slash index rest

/-! ## Characters and numbers -/

/-- The loop of a quoted character, which ends at the line. -/
def scanQuoted (escaped : Bool) : Nat → Nat → List Char → Bool × Nat × Cursor
  | stop, offset, [] => (false, stop, ⟨offset, []⟩)
  | stop, offset, ch :: rest =>
    if ch = '\r' ∨ ch = '\n' then (false, stop, ⟨offset, ch :: rest⟩)
    else if escaped then scanQuoted false (behind offset ch) (behind offset ch) rest
    else if ch = '\\' then scanQuoted true (behind offset ch) (behind offset ch) rest
    else if ch = '\'' then (true, behind offset ch, ⟨behind offset ch, rest⟩)
    else scanQuoted false (behind offset ch) (behind offset ch) rest

def quotedKind (closed byte : Bool) (text : List Char) : TokenKind :=
  if byte then (if closed && isOk (decodeByteCharLiteral text) then .byteChar else .unknown)
  else (if closed && isOk (decodeCharLiteral text) then .char else .unknown)

/-- A character, or a byte; `rest` is behind the quote. -/
def scanCharacter (input : List Char) (index : Nat) (byte : Bool) (rest : List Char) : Option Scan :=
  let start := if byte then index + 2 else index + 1
  let (closed, stop, cursor) := scanQuoted false start start rest
  (slice input index stop).map fun text => ([⟨quotedKind closed byte text, index, stop⟩], cursor)

/-- A number with a base, behind it. -/
def scanBased (input : List Char) (index : Nat) (rest : List Char) : Option Scan :=
  let (stop, cursor) := scanWhile wordCharacter (fun offset _ => offset + 1) (index + 2) (index + 2) rest
  (slice input index stop).map fun text =>
    ([⟨if isIntegerLiteral text then .number else .unknown, index, stop⟩], cursor)

/-- The parts of a decimal number, with the end of what was scanned. -/
structure NumberScan where
  kind : TokenKind
  stop : Nat
  cursor : Cursor

/-- A dot is part of the number when a digit follows. -/
def scanFraction (scan : NumberScan) : NumberScan :=
  match scan.cursor.rest with
  | '.' :: digit :: rest =>
    if isAsciiDigit digit then
      let offset := scan.cursor.offset + 1
      let (stop, cursor) := scanWhile digitOrLine (fun offset _ => offset + 1) offset offset (digit :: rest)
      ⟨.float, stop, cursor⟩
    else scan
  | _ => scan

/-- The sign of an exponent. -/
def skipSign (cursor : Cursor) : Cursor :=
  match cursor.rest with
  | ch :: rest => if ch = '+' ∨ ch = '-' then ⟨cursor.offset + 1, rest⟩ else cursor
  | [] => cursor

def scanExponent (scan : NumberScan) : NumberScan :=
  match scan.cursor.rest with
  | ch :: rest =>
    if ch = 'e' ∨ ch = 'E' then
      let signed := skipSign ⟨scan.cursor.offset + 1, rest⟩
      let kind := if signed.rest.head?.any isAsciiDigit then TokenKind.float else .unknown
      let (stop, cursor) :=
        scanWhile digitOrLine (fun offset _ => offset + 1) signed.offset signed.offset signed.rest
      ⟨kind, stop, cursor⟩
    else scan
  | [] => scan

/-- The kind of a decimal number, by its spelling with the suffix. -/
def decimalKind (kind : TokenKind) (text : List Char) : TokenKind :=
  let kind := if (numericLiteralParts text).2.any fun stop => stop.head? = some 'f' then .float else kind
  if kind = .number ∧ !isIntegerLiteral text then .unknown else kind

def scanDecimal (input : List Char) (index : Nat) (rest : List Char) : Option Scan :=
  let (stop, cursor) := scanWhile digitOrLine (fun offset _ => offset + 1) (index + 1) (index + 1) rest
  let scan := scanExponent (scanFraction ⟨.number, stop, cursor⟩)
  let (stop, cursor) := scanWhile wordCharacter behind scan.stop scan.cursor.offset scan.cursor.rest
  (slice input index stop).map fun text => ([⟨decimalKind scan.kind text, index, stop⟩], cursor)

def scanNumber (input : List Char) (index : Nat) (ch : Char) (rest : List Char) : Option Scan :=
  match rest with
  | base :: more =>
    if ch = '0' ∧ (base = 'b' ∨ base = 'o' ∨ base = 'x') then scanBased input index more
    else scanDecimal input index rest
  | [] => scanDecimal input index rest

/-- An identifier or keyword, from its first character. -/
def scanIdentifier (input : List Char) (index : Nat) (text : List Char) : Option Scan :=
  let (last, cursor) := scanWhile wordCharacter (fun offset _ => offset) index index text
  (slice input index (last + 1)).map fun name => ([⟨identifierKind name, index, last + 1⟩], cursor)

/-! ## All tokens -/

/-- What begins with none of the punctuation characters. -/
def scanWord (input : List Char) (index : Nat) (ch : Char) (rest : List Char) : Option Scan :=
  if ch = '\'' then scanCharacter input index false rest
  else if ch = 'b' ∧ rest.head? = some '\'' then scanCharacter input index true rest.tail
  else if isAsciiDigit ch then scanNumber input index ch rest
  else if ch = '_' ∨ isAsciiAlphabetic ch then scanIdentifier input index (ch :: rest)
  else some (emit .unknown index ch.utf8Size rest)

/-- The `match` of the loop. -/
def scanPunctuation (input : List Char) (index : Nat) (ch : Char) (rest : List Char) : Option Scan :=
  match ch with
  | '(' => some (emit .lParen index 1 rest)
  | ')' => some (emit .rParen index 1 rest)
  | '[' => some (emit .lBracket index 1 rest)
  | ']' => some (emit .rBracket index 1 rest)
  | '{' => some (emit .lBrace index 1 rest)
  | '}' => some (emit .rBrace index 1 rest)
  | ',' => some (emit .comma index 1 rest)
  | ':' => some (oneOrTwo ':' .colonColon .colon index rest)
  | ';' => some (emit .semi index 1 rest)
  | '#' => some (emit .hash index 1 rest)
  | '.' => some (scanDot index rest)
  | '+' => some (oneOrTwo '=' .plusEq .plus index rest)
  | '=' => some (scanEq index rest)
  | '-' => some (scanMinus index rest)
  | '*' => some (oneOrTwo '=' .starEq .star index rest)
  | '/' => some (scanSlash index rest)
  | '%' => some (oneOrTwo '=' .percentEq .percent index rest)
  | '?' => some (emit .question index 1 rest)
  | '!' => some (scanBang index rest)
  | '<' => some (oneOrTwo '=' .le .lt index rest)
  | '>' => some (oneOrTwo '=' .ge .gt index rest)
  | '&' => some (scanBitwise input index '&' rest)
  | '|' => some (scanBitwise input index '|' rest)
  | '^' => some (scanBitwise input index '^' rest)
  | ch => scanWord input index ch rest

/-- One iteration of the loop. -/
def scanToken (input : List Char) (index : Nat) (ch : Char) (rest : List Char) : Option Scan :=
  if opensString ch rest then scanString input index (ch :: rest)
  else if ch = 'f' ∧ rest.head? = some '"' then some (emit .unknown index 1 rest)
  else if isWhitespace ch then
    let (stop, cursor) := scanWhile isWhitespace behind index index (ch :: rest)
    some ([⟨.whitespace, index, stop⟩], cursor)
  else scanPunctuation input index ch rest

/-- The loop, with the token of the end. -/
def lexLoop (input : List Char) : Nat → Cursor → Option (List Token)
  | _, ⟨_, []⟩ => some [⟨.eof, size input, size input⟩]
  | 0, ⟨_, _ :: _⟩ => none
  | bound + 1, ⟨index, ch :: rest⟩ => do
    let (tokens, cursor) ← scanToken input index ch rest
    let more ← lexLoop input bound cursor
    some (tokens ++ more)

/-- `lex`: at most one iteration for each character. -/
def lex (input : List Char) : Option (List Token) := lexLoop input input.length ⟨0, input⟩

end Kagari.Syntax
