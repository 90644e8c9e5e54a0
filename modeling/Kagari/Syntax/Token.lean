import Kagari.Syntax.Literal

/-!
# Tokens

`kagari-syntax/src/token.rs` and the scanner's cursor. A token has the byte offsets of its spelling.
The cursor stands for the peekable iterator over the characters of the source: the offset of the next
character, and the characters from there on.
-/

namespace Kagari.Syntax

open Lib.Text

inductive TokenKind where
  | whitespace | lineComment | blockComment | asKw | crateKw | forKw | inKw | asyncKw | awaitKw
  | fnKw | implKw | modKw | pubKw | selfKw | superKw | traitKw | typeKw | useKw | whereKw
  | constKw | staticKw | valKw | varKw | structKw | enumKw | returnKw | ifKw | elseKw | matchKw
  | whileKw | loopKw | breakKw | continueKw | trueKw | falseKw | ident | number | float | string
  | formatStart | formatText | formatOpen | formatClose | formatEnd | lParen | rParen | lBracket
  | rBracket | lBrace | rBrace | comma | colon | colonColon | semi | dot | dotDot | dotDotEq
  | hash | eq | plus | plusEq | minus | minusEq | star | starEq | slash | slashEq | percent
  | percentEq | bang | question | eqEq | notEq | identityEq | identityNotEq | lt | gt | le | ge
  | amp | ampEq | pipeEq | caret | caretEq | ampAmp | pipe | pipePipe | arrow | fatArrow | eof
  | unknown | char | byteChar | byteString
deriving DecidableEq

structure Token where
  kind : TokenKind
  start : Nat
  stop : Nat
deriving DecidableEq

structure Cursor where
  offset : Nat
  rest : List Char
deriving DecidableEq

/-- The tokens of one scanner, and where it stopped. -/
abbrev Scan := List Token × Cursor

/-- `chars.peek().map_or(input.len(), |(index, _)| *index)`. -/
def Cursor.position (cursor : Cursor) (input : List Char) : Nat :=
  if cursor.rest.isEmpty then size input else cursor.offset

/-- One token of the given number of bytes. -/
def emit (kind : TokenKind) (index length : Nat) (rest : List Char) : Scan :=
  ([⟨kind, index, index + length⟩], ⟨index + length, rest⟩)

/-- The loops that consume characters of a class; `mark` is what they remember of the last one. -/
def scanWhile (p : Char → Bool) (mark : Nat → Char → Nat) : Nat → Nat → List Char → Nat × Cursor
  | stop, offset, [] => (stop, ⟨offset, []⟩)
  | stop, offset, ch :: rest =>
    if p ch then scanWhile p mark (mark offset ch) (offset + ch.utf8Size) rest
    else (stop, ⟨offset, ch :: rest⟩)

/-- The offset behind a character. -/
def behind (offset : Nat) (ch : Char) : Nat := offset + ch.utf8Size

/-- `identifier_kind`. -/
def identifierKind : List Char → TokenKind
  | ['a', 's'] => .asKw
  | ['c', 'r', 'a', 't', 'e'] => .crateKw
  | ['f', 'o', 'r'] => .forKw
  | ['i', 'n'] => .inKw
  | ['a', 's', 'y', 'n', 'c'] => .asyncKw
  | ['a', 'w', 'a', 'i', 't'] => .awaitKw
  | ['f', 'n'] => .fnKw
  | ['i', 'm', 'p', 'l'] => .implKw
  | ['m', 'o', 'd'] => .modKw
  | ['p', 'u', 'b'] => .pubKw
  | ['s', 'e', 'l', 'f'] => .selfKw
  | ['s', 'u', 'p', 'e', 'r'] => .superKw
  | ['t', 'r', 'a', 'i', 't'] => .traitKw
  | ['t', 'y', 'p', 'e'] => .typeKw
  | ['u', 's', 'e'] => .useKw
  | ['w', 'h', 'e', 'r', 'e'] => .whereKw
  | ['c', 'o', 'n', 's', 't'] => .constKw
  | ['s', 't', 'a', 't', 'i', 'c'] => .staticKw
  | ['v', 'a', 'l'] => .valKw
  | ['v', 'a', 'r'] => .varKw
  | ['s', 't', 'r', 'u', 'c', 't'] => .structKw
  | ['e', 'n', 'u', 'm'] => .enumKw
  | ['r', 'e', 't', 'u', 'r', 'n'] => .returnKw
  | ['i', 'f'] => .ifKw
  | ['e', 'l', 's', 'e'] => .elseKw
  | ['m', 'a', 't', 'c', 'h'] => .matchKw
  | ['w', 'h', 'i', 'l', 'e'] => .whileKw
  | ['l', 'o', 'o', 'p'] => .loopKw
  | ['b', 'r', 'e', 'a', 'k'] => .breakKw
  | ['c', 'o', 'n', 't', 'i', 'n', 'u', 'e'] => .continueKw
  | ['t', 'r', 'u', 'e'] => .trueKw
  | ['f', 'a', 'l', 's', 'e'] => .falseKw
  | _ => .ident

end Kagari.Syntax
