import Sumscript.Text.Characters

/-! # Texts, blanks and line ends in TOML

Readers take the rest of a document and yield what they read with the rest after it, or nothing
where the document breaks the format.
-/

namespace Sumscript.Toml

/-- Reads something from the front of a text. -/
abbrev Reader (α : Type) := List Char → Option (α × List Char)

/-- What follows blanks. -/
def skipBlanks (input : List Char) : List Char :=
  input.dropWhile isBlankOrTab

/-- Whether a character may stand in a comment or in a text on one line. -/
def isPlain (c : Char) : Bool :=
  c == '\t' || (32 ≤ c.toNat && c.toNat ≠ 127)

/-- What follows a line end. -/
def afterLineEnd : List Char → Option (List Char)
  | '\n' :: rest => some rest
  | '\r' :: '\n' :: rest => some rest
  | _ => none

/-- What follows a comment; without one, the text itself. -/
def skipComment : List Char → List Char
  | '#' :: rest => rest.dropWhile isPlain
  | input => input

/-- What follows blanks, a comment and a line end or the end of the document. -/
def endLine (input : List Char) : Option (List Char) :=
  match skipComment (skipBlanks input) with
  | [] => some []
  | rest => afterLineEnd rest

/-- What follows blanks, comments and line ends; `fuel` bounds their number. -/
def skipLayout : Nat → List Char → List Char
  | 0, input => input
  | fuel + 1, input =>
    let rest := skipComment (skipBlanks input)
    match afterLineEnd rest with
    | some next => skipLayout fuel next
    | none => rest

/-- The value of a digit to the base sixteen. -/
def hexValue? (c : Char) : Option Nat :=
  if c.isDigit then some (c.toNat - '0'.toNat)
  else if 'a' ≤ c && c ≤ 'f' then some (c.toNat - 'a'.toNat + 10)
  else if 'A' ≤ c && c ≤ 'F' then some (c.toNat - 'A'.toNat + 10)
  else none

/-- The character of a code point that is written in digits to the base sixteen. -/
def codePoint? (digits : List Char) : Option Char := do
  let code ← digits.foldlM (fun value c => (hexValue? c).map (16 * value + ·)) 0
  if code.isValidChar then some (Char.ofNat code) else none

/-- The character of an escape with one letter. -/
def simpleEscape? : Char → Option Char
  | 'b' => some '\x08'
  | 't' => some '\t'
  | 'n' => some '\n'
  | 'f' => some '\x0c'
  | 'r' => some '\r'
  | '"' => some '"'
  | '\\' => some '\\'
  | _ => none

/-- Reads the rest of a text in double quotes; `read` holds what was read, last first. -/
def basicText (read : List Char) : Reader String
  | '"' :: rest => some (String.ofList read.reverse, rest)
  | '\\' :: 'u' :: a :: b :: c :: d :: rest =>
    match codePoint? [a, b, c, d] with
    | some char => basicText (char :: read) rest
    | none => none
  | '\\' :: 'U' :: a :: b :: c :: d :: e :: f :: g :: h :: rest =>
    match codePoint? [a, b, c, d, e, f, g, h] with
    | some char => basicText (char :: read) rest
    | none => none
  | '\\' :: c :: rest =>
    match simpleEscape? c with
    | some char => basicText (char :: read) rest
    | none => none
  | c :: rest => if isPlain c && c ≠ '\\' then basicText (c :: read) rest else none
  | [] => none

/-- Whether only blanks stand before the next line end. -/
def endsInBlanks (input : List Char) : Bool :=
  (afterLineEnd (skipBlanks input)).isSome

/-- Reads the rest of a text in three double quotes. While `trimming`, layout is left out, as a
backslash at the end of a line demands. -/
def longBasicText (trimming : Bool) (read : List Char) : Reader String
  | '"' :: '"' :: '"' :: '"' :: '"' :: rest =>
    some (String.ofList ('"' :: '"' :: read).reverse, rest)
  | '"' :: '"' :: '"' :: '"' :: rest => some (String.ofList ('"' :: read).reverse, rest)
  | '"' :: '"' :: '"' :: rest => some (String.ofList read.reverse, rest)
  | '\\' :: 'u' :: a :: b :: c :: d :: rest =>
    match codePoint? [a, b, c, d] with
    | some char => longBasicText false (char :: read) rest
    | none => none
  | '\\' :: 'U' :: a :: b :: c :: d :: e :: f :: g :: h :: rest =>
    match codePoint? [a, b, c, d, e, f, g, h] with
    | some char => longBasicText false (char :: read) rest
    | none => none
  | '\\' :: c :: rest =>
    if endsInBlanks (c :: rest) then longBasicText true read (c :: rest)
    else match simpleEscape? c with
      | some char => longBasicText false (char :: read) rest
      | none => none
  | '\r' :: '\n' :: rest =>
    longBasicText trimming (if trimming then read else '\n' :: read) rest
  | c :: rest =>
    if trimming && (isBlankOrTab c || c == '\n') then longBasicText true read rest
    else if c == '\n' || (isPlain c && c ≠ '\\') then longBasicText false (c :: read) rest
    else none
  | [] => none

/-- Reads the rest of a text in single quotes. -/
def literalText (read : List Char) : Reader String
  | '\'' :: rest => some (String.ofList read.reverse, rest)
  | c :: rest => if isPlain c then literalText (c :: read) rest else none
  | [] => none

/-- Reads the rest of a text in three single quotes. -/
def longLiteralText (read : List Char) : Reader String
  | '\'' :: '\'' :: '\'' :: '\'' :: '\'' :: rest =>
    some (String.ofList ('\'' :: '\'' :: read).reverse, rest)
  | '\'' :: '\'' :: '\'' :: '\'' :: rest => some (String.ofList ('\'' :: read).reverse, rest)
  | '\'' :: '\'' :: '\'' :: rest => some (String.ofList read.reverse, rest)
  | '\r' :: '\n' :: rest => longLiteralText ('\n' :: read) rest
  | c :: rest =>
    if c == '\n' || isPlain c then longLiteralText (c :: read) rest else none
  | [] => none

/-- A text without the line end that it starts with. -/
def dropFirstLineEnd (input : List Char) : List Char :=
  (afterLineEnd input).getD input

/-- Reads a text in any kind of quotes. -/
def quotedText : Reader String
  | '"' :: '"' :: '"' :: rest => longBasicText false [] (dropFirstLineEnd rest)
  | '\'' :: '\'' :: '\'' :: rest => longLiteralText [] (dropFirstLineEnd rest)
  | '"' :: rest => basicText [] rest
  | '\'' :: rest => literalText [] rest
  | _ => none

/-- Whether a character may stand in a key without quotes. -/
def isKeyChar (c : Char) : Bool :=
  c.isAlphanum || c == '-' || c == '_'

/-- Reads one part of a key. -/
def keyPart : Reader String
  | '"' :: rest => basicText [] rest
  | '\'' :: rest => literalText [] rest
  | input =>
    match input.takeWhile isKeyChar with
    | [] => none
    | part => some (String.ofList part, input.dropWhile isKeyChar)

/-- Reads the parts of a key with dots between them; `fuel` bounds their number. -/
def keyParts : Nat → Reader (List String)
  | 0, _ => none
  | fuel + 1, input =>
    match keyPart (skipBlanks input) with
    | none => none
    | some (part, rest) =>
      match skipBlanks rest with
      | '.' :: next => (keyParts fuel next).map fun (parts, rest) => (part :: parts, rest)
      | next => some ([part], next)

/-- The greatest number of parts of a key, and of arrays and inline tables inside each other. -/
def maxNesting : Nat := 79

/-- Reads a key. -/
def key : Reader (List String) :=
  keyParts maxNesting

end Sumscript.Toml
