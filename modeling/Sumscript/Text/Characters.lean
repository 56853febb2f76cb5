/-! # Kinds of characters and how bytes spell them

Inside a line, words are set apart by blanks and tabs. In the wider sense blank characters are
those with the property White_Space: the ASCII controls from tab to carriage return, the blank,
and the spaces and separators beyond ASCII.
-/

namespace Sumscript

/-- Whether a character sets words apart inside a line. -/
def isBlankOrTab (c : Char) : Bool :=
  c == ' ' || c == '\t'

/-- Whether a character is blank in the wider sense. -/
def isBlankChar (c : Char) : Bool :=
  let code := c.toNat
  (9 ≤ code && code ≤ 13) || code == 0x20 || code == 0x85 || code == 0xa0 || code == 0x1680 ||
    (0x2000 ≤ code && code ≤ 0x200a) || code == 0x2028 || code == 0x2029 || code == 0x202f ||
    code == 0x205f || code == 0x3000

/-- A text without the blanks at both its ends. -/
def trimBlanks (text : String) : String :=
  String.ofList ((text.toList.dropWhile isBlankChar).reverse.dropWhile isBlankChar).reverse

/-! ## Identifiers

An identifier is a letter or an underscore followed by letters, underscores and digits. Letters
and digits are those of ASCII.
-/

namespace Identifier

/-- Whether a character may start an identifier. -/
def starts (c : Char) : Bool :=
  c.isAlpha || c == '_'

/-- Whether a character may go on an identifier. -/
def continues (c : Char) : Bool :=
  starts c || c.isDigit

/-- Whether a text is an identifier. -/
def isValid (name : String) : Bool :=
  match name.toList with
  | [] => false
  | c :: rest => starts c && rest.all continues

end Identifier

/-! ## Texts from any bytes

Other programs write bytes that need not spell a text. They are read as UTF-8 with the
replacement character in the place of every longest sequence that starts a character and breaks
off.
-/

namespace Utf8

/-- The character in the place of what is no character. -/
def replacement : Char := '\uFFFD'

/-- A character that was begun: its bits as far as they are known, the number of bytes that are
missing, and the bounds of the next one. -/
structure Partial where
  code : Nat
  missing : Nat
  low : Nat
  high : Nat
deriving DecidableEq, Repr, Inhabited

/-- What a byte that starts a character yields: a character that is complete, or one that was
begun. -/
def start (byte : Nat) : List Char × Option Partial :=
  if byte < 0x80 then ([Char.ofNat byte], none)
  else if 0xC2 ≤ byte && byte ≤ 0xDF then ([], some ⟨byte - 0xC0, 1, 0x80, 0xBF⟩)
  else if 0xE0 ≤ byte && byte ≤ 0xEF then
    ([], some ⟨byte - 0xE0, 2, if byte = 0xE0 then 0xA0 else 0x80,
      if byte = 0xED then 0x9F else 0xBF⟩)
  else if 0xF0 ≤ byte && byte ≤ 0xF4 then
    ([], some ⟨byte - 0xF0, 3, if byte = 0xF0 then 0x90 else 0x80,
      if byte = 0xF4 then 0x8F else 0xBF⟩)
  else ([replacement], none)

/-- What a byte yields behind a character that may have been begun. -/
def next (begun : Option Partial) (byte : Nat) : List Char × Option Partial :=
  match begun with
  | none => start byte
  | some p =>
    if p.low ≤ byte && byte ≤ p.high then
      let code := 64 * p.code + byte % 64
      if p.missing = 1 then ([Char.ofNat code], none)
      else ([], some ⟨code, p.missing - 1, 0x80, 0xBF⟩)
    else
      match start byte with
      | (chars, begun) => (replacement :: chars, begun)

/-- The characters of bytes behind a character that may have been begun. -/
def decode (begun : Option Partial) : List UInt8 → List Char
  | [] => if begun.isSome then [replacement] else []
  | byte :: rest =>
    match next begun byte.toNat with
    | (chars, begun) => chars ++ decode begun rest

/-- The text of any bytes. -/
def ofBytes (bytes : ByteArray) : String :=
  String.ofList (decode none bytes.data.toList)

end Utf8

end Sumscript
