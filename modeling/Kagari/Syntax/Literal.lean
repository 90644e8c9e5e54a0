import Kagari.Lib.Text

/-!
# Literals

`kagari-source/src/literal.rs`: the grammar of numbers and the decoders of character and string
literals. A text is its list of characters, errors are the messages of the source. Loops that consume
characters have a bound, the number of characters that are left.

No decoder is cancelled: a cancelled token ends the scan with an error of its own.
-/

namespace Kagari.Syntax

open Lib.Text

/-! ## Characters -/

def isAsciiDigit (ch : Char) : Bool := decide ('0' ≤ ch ∧ ch ≤ '9')

def isAsciiLower (ch : Char) : Bool := decide ('a' ≤ ch ∧ ch ≤ 'z')

def isAsciiUpper (ch : Char) : Bool := decide ('A' ≤ ch ∧ ch ≤ 'Z')

def isAsciiAlphabetic (ch : Char) : Bool := isAsciiLower ch || isAsciiUpper ch

def isAsciiAlphanumeric (ch : Char) : Bool := isAsciiAlphabetic ch || isAsciiDigit ch

def isAscii (ch : Char) : Bool := decide (ch.toNat < 128)

/-- `char::to_digit`. -/
def toDigit (radix : Nat) (ch : Char) : Option Nat :=
  let value :=
    if isAsciiDigit ch then some (ch.toNat - '0'.toNat)
    else if isAsciiLower ch then some (ch.toNat - 'a'.toNat + 10)
    else if isAsciiUpper ch then some (ch.toNat - 'A'.toNat + 10)
    else none
  value.filter fun digit => digit < radix

def isDigit (radix : Nat) (ch : Char) : Bool := (toDigit radix ch).isSome

/-- `char::from_u32`. -/
def fromU32 (value : Nat) : Option Char :=
  if h : value.isValidChar then some (Char.ofNatAux value h) else none

/-- `str::strip_prefix`. -/
def stripStart (start text : List Char) : Option (List Char) :=
  if start.isPrefixOf text then some (text.drop start.length) else none

/-- `str::strip_suffix`. -/
def stripEnd (stop text : List Char) : Option (List Char) :=
  if stop.isSuffixOf text then some (text.take (text.length - stop.length)) else none

/-! ## Numbers -/

def typeSuffixes : List (List Char) :=
  [['i', '6', '4'], ['u', '6', '4'], ['i', '3', '2'], ['u', '3', '2'], ['i', '1', '6'],
    ['u', '1', '6'], ['i', '8'], ['u', '8'], ['f', '3', '2'], ['f', '6', '4']]

def nonDecimal (text : List Char) : Bool :=
  [['0', 'x'], ['0', 'o'], ['0', 'b']].any fun start => start.isPrefixOf text

/-- `numeric_literal_parts`: a primitive type at the end is not part of the digits. -/
def numericLiteralParts (text : List Char) : List Char × Option (List Char) :=
  let found := typeSuffixes.findSome? fun stop =>
    if stop.head? = some 'f' && nonDecimal text then none
    else (stripEnd stop text).map fun digits => (digits, some stop)
  found.getD (text, none)

def integerDigits (text : List Char) : Except String (Nat × List Char) :=
  let (text, suffix) := numericLiteralParts text
  if suffix.any fun stop => stop.head? = some 'f' then
    .error "floating-point suffix on integer literal"
  else
    let (radix, digits) : Nat × List Char :=
      match stripStart ['0', 'b'] text with
      | some digits => (2, digits)
      | none =>
        match stripStart ['0', 'o'] text with
        | some digits => (8, digits)
        | none =>
          match stripStart ['0', 'x'] text with
          | some digits => (16, digits)
          | none => (10, text)
    if !digits.any (isDigit radix) then .error "invalid integer literal"
    else if !digits.all (fun ch => ch = '_' || isDigit radix ch) then .error "invalid integer literal"
    else .ok (radix, digits)

def isIntegerLiteral (text : List Char) : Bool :=
  match integerDigits text with
  | .ok _ => true
  | .error _ => false

/-- `parse_integer_literal`. The digits are of the radix and at least one, so that `from_str_radix` fails for
the range only. -/
def parseIntegerLiteral (text : List Char) : Except String Nat := do
  let (radix, digits) ← integerDigits text
  let compact := digits.filter fun ch => ch ≠ '_'
  let value := compact.foldl (fun value ch => value * radix + (toDigit radix ch).getD 0) 0
  if value < 2 ^ 64 then .ok value else .error "integer literal is outside the u64 range"

/-! ## Delimiters -/

inductive StringDelimiter where
  | cooked
  | raw (hashes : Nat)
deriving DecidableEq

namespace StringDelimiter

/-- The loop of `opening`; `hashes` is a `u8`. -/
def openingHashes (hashes : Nat) : List Char → Except String (Option (StringDelimiter × Nat))
  | '"' :: _ => .ok (some (.raw hashes, hashes + 2))
  | '#' :: rest =>
    if hashes = 255 then .error "raw String has more than 255 hashes" else openingHashes (hashes + 1) rest
  | _ => .error "invalid raw String opening delimiter"

/-- The delimiter at the start of a text, with its length. -/
def opening : List Char → Except String (Option (StringDelimiter × Nat))
  | '"' :: _ => .ok (some (.cooked, 1))
  | 'r' :: rest =>
    if rest.head? = some '#' || rest.head? = some '"' then openingHashes 0 rest else .ok none
  | _ => .ok none

def hashes : StringDelimiter → Nat
  | .cooked => 0
  | .raw hashes => hashes

/-- The length of the closing delimiter at the start of a text. -/
def closingLen (delimiter : StringDelimiter) : List Char → Option Nat
  | '"' :: rest =>
    if rest.take delimiter.hashes = List.replicate delimiter.hashes '#' then some (1 + delimiter.hashes)
    else none
  | _ => none

end StringDelimiter

/-- `string_content`. -/
def stringContent (text : List Char) : Except String (StringDelimiter × List Char) := do
  match ← StringDelimiter.opening text with
  | none => .error "invalid String opening delimiter"
  | some (delimiter, opening) =>
    let closing := 1 + delimiter.hashes
    if size text < closing ∨ size text - closing < opening then .error "unterminated String literal"
    else
      let stop := size text - closing
      if (dropBytes text stop).bind delimiter.closingLen ≠ some closing then
        .error "unterminated String literal"
      else
        match slice text opening stop with
        | none => .error "invalid String delimiter boundary"
        | some content => .ok (delimiter, content)

/-! ## Escapes -/

/-- The digits of a Unicode escape, behind its brace. -/
def decodeUnicode (value digits : Nat) : List Char → Except String (Char × List Char)
  | '}' :: rest =>
    if 0 < digits then
      match fromU32 value with
      | some ch => .ok (ch, rest)
      | none => .error "invalid Unicode scalar"
    else .error "invalid Unicode escape"
  | '_' :: rest => if 0 < digits then decodeUnicode value digits rest else .error "invalid Unicode escape"
  | ch :: rest =>
    match toDigit 16 ch with
    | some digit =>
      if digits < 6 then decodeUnicode (value * 16 + digit) (digits + 1) rest
      else .error "invalid Unicode escape"
    | none => .error "invalid Unicode escape"
  | [] => .error "invalid Unicode escape"

/-- A hexadecimal escape has two digits. -/
def decodeHex (byte : Bool) : List Char → Except String (Char × List Char)
  | high :: low :: rest =>
    match toDigit 16 high, toDigit 16 low with
    | some first, some second =>
      if !byte ∧ 0x7f < first * 16 + second then .error "char hexadecimal escape must be ASCII"
      else
        match fromU32 (first * 16 + second) with
        | some ch => .ok (ch, rest)
        | none => .error "invalid Unicode scalar"
    | _, _ => .error "invalid ASCII escape"
  | _ => .error "invalid ASCII escape"

/-- `decode_escape`: the character, and what follows. -/
def decodeEscape (byte : Bool) : List Char → Except String (Char × List Char)
  | '\'' :: rest => .ok ('\'', rest)
  | '"' :: rest => .ok ('"', rest)
  | '\\' :: rest => .ok ('\\', rest)
  | 'n' :: rest => .ok ('\n', rest)
  | 'r' :: rest => .ok ('\r', rest)
  | 't' :: rest => .ok ('\t', rest)
  | '0' :: rest => .ok ('\x00', rest)
  | 'x' :: rest => decodeHex byte rest
  | 'u' :: rest =>
    if byte then .error "Unicode escapes are forbidden in byte literals"
    else
      match rest with
      | '{' :: rest => decodeUnicode 0 0 rest
      | _ => .error "invalid Unicode escape"
  | _ => .error "invalid char escape"

/-! ## Strings -/

/-- A line continuation drops the blanks that follow. -/
def dropContinued : List Char → List Char
  | ch :: rest =>
    if ch = ' ' ∨ ch = '\t' ∨ ch = '\r' ∨ ch = '\n' then dropContinued rest else ch :: rest
  | [] => []

/-- `decode_string_characters`. -/
def decodeStringCharacters (cooked byte : Bool) : Nat → List Char → Except String (List Char)
  | 0, _ => .ok []
  | _ + 1, [] => .ok []
  | bound + 1, ch :: rest =>
    if byte ∧ !isAscii ch then .error "direct byte literal text must be ASCII"
    else if ch = '\r' then
      match rest with
      | '\n' :: rest => return '\n' :: (← decodeStringCharacters cooked byte bound rest)
      | _ => .error "standalone CR in String literal"
    else if ch = '\\' ∧ cooked then
      match rest with
      | [] => .error "incomplete String escape"
      | '\n' :: rest => decodeStringCharacters cooked byte bound (dropContinued rest)
      | '\r' :: rest =>
        match rest with
        | '\n' :: rest => decodeStringCharacters cooked byte bound (dropContinued rest)
        | _ => .error "String continuation requires LF or CRLF"
      | next :: rest => do
        let (value, rest) ← decodeEscape byte (next :: rest)
        return value :: (← decodeStringCharacters cooked byte bound rest)
    else if (ch = '{' ∨ ch = '}') ∧ cooked ∧ !byte then
      match rest with
      | next :: rest =>
        if next = ch then return ch :: (← decodeStringCharacters cooked byte bound rest)
        else .error "String text requires doubled braces; interpolation requires a name binding"
      | [] => .error "String text requires doubled braces; interpolation requires a name binding"
    else if ch = '"' ∧ cooked then .error "unescaped quote in String text"
    else return ch :: (← decodeStringCharacters cooked byte bound rest)

def decodeStringContent (cooked byte : Bool) (content : List Char) : Except String (List Char) :=
  decodeStringCharacters cooked byte content.length content

/-- A raw string ends at its first closing delimiter. -/
def closesInside (delimiter : StringDelimiter) : List Char → Bool
  | [] => false
  | ch :: rest => (delimiter.closingLen (ch :: rest)).isSome || closesInside delimiter rest

/-- `decode_string_literal_inner`. -/
def decodeStringLiteralInner (byte : Bool) (text : List Char) : Except String (List Char) := do
  let (delimiter, content) ← stringContent text
  match delimiter with
  | .cooked => decodeStringContent true byte content
  | .raw _ =>
    if closesInside delimiter content then .error "unexpected text after raw String delimiter"
    else decodeStringContent false byte content

def decodeStringLiteral (text : List Char) : Except String (List Char) :=
  decodeStringLiteralInner false text

def decodeByteStringLiteral : List Char → Except String (List Char)
  | 'b' :: text => decodeStringLiteralInner true text
  | _ => .error "invalid byte string prefix"

def decodeStringFragment (content : List Char) : Except String (List Char) :=
  decodeStringContent true false content

/-! ## Characters in quotes -/

def decodeCharacter (byte : Bool) (text : List Char) : Except String Char :=
  match (stripStart ['\''] text).bind (stripEnd ['\'']) with
  | none => .error "unterminated char literal"
  | some content => do
    let (value, rest) ←
      match content with
      | '\\' :: rest => decodeEscape byte rest
      | [] => .error "empty char literal"
      | ch :: rest =>
        if ch = '\t' ∨ ch = '\r' ∨ ch = '\n' then .error "direct whitespace in char literal"
        else if ch = '\'' then .error "unescaped apostrophe in char literal"
        else if byte ∧ !isAscii ch then .error "direct byte literal text must be ASCII"
        else .ok (ch, rest)
    if rest ≠ [] then
      .error (if byte then "byte character literal must contain exactly one byte"
        else "char literal must contain exactly one Unicode scalar")
    else .ok value

def decodeCharLiteral (text : List Char) : Except String Char := decodeCharacter false text

def decodeByteCharLiteral : List Char → Except String Char
  | 'b' :: text => decodeCharacter true text
  | _ => .error "invalid byte character prefix"

/-- `Result::is_ok`. -/
def isOk {α : Type} : Except String α → Bool
  | .ok _ => true
  | .error _ => false

end Kagari.Syntax
