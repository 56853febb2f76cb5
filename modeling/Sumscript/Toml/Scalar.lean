import Sumscript.Settings.Value
import Sumscript.Text.Number
import Sumscript.Toml.Text

/-! # Numbers, truth values and dates in TOML

A scalar is a word without blanks; a date and a time of day may have one blank between them.
Dates and times are kept as texts.
-/

namespace Sumscript.Toml

/-- Digits with underscores between them, without the underscores. -/
def joinDigits (isDigit : Char → Bool) : List Char → Option (List Char)
  | [] => none
  | [c] => if isDigit c then some [c] else none
  | c :: '_' :: rest =>
    if isDigit c then (joinDigits isDigit rest).map (c :: ·) else none
  | c :: rest => if isDigit c then (joinDigits isDigit rest).map (c :: ·) else none

/-- The sign in front of a number, and whether there is one below zero. -/
def splitSign : List Char → Bool × List Char
  | '-' :: rest => (true, rest)
  | '+' :: rest => (false, rest)
  | word => (false, word)

/-- The digits of a whole number without superfluous zeros in front. -/
def wholeDigits (word : List Char) : Option (List Char) :=
  match joinDigits Char.isDigit word with
  | some ('0' :: _ :: _) => none
  | digits => digits

/-- A number if it fits in 64 bits with a sign. -/
def inRange (n : Int) : Option Value :=
  if Numeral.fitsInt64 n then some (.integer n) else none

/-- The value of digits to a base up to sixteen. -/
def valueToBase (base : Nat) (digits : List Char) : Nat :=
  digits.foldl (fun value c => base * value + (hexValue? c).getD 0) 0

/-- A number to a base, written without a sign. -/
def basedInteger? (base : Nat) (isDigit : Char → Bool) (digits : List Char) : Option Value :=
  (joinDigits isDigit digits).bind fun digits => inRange (valueToBase base digits)

/-- A whole number. -/
def integer? (word : List Char) : Option Value :=
  match word with
  | '0' :: 'x' :: digits => basedInteger? 16 (fun c => (hexValue? c).isSome) digits
  | '0' :: 'o' :: digits => basedInteger? 8 (fun c => '0' ≤ c && c ≤ '7') digits
  | '0' :: 'b' :: digits => basedInteger? 2 (fun c => c == '0' || c == '1') digits
  | _ =>
    match splitSign word with
    | (negative, digits) =>
      (wholeDigits digits).bind fun digits =>
        let n : Int := valueToBase 10 digits
        inRange (if negative then -n else n)

/-- The value of an exponent; none is zero. -/
def exponent? : List Char → Option Int
  | [] => some 0
  | _ :: word =>
    match splitSign word with
    | (negative, digits) =>
      (joinDigits Char.isDigit digits).map fun digits =>
        let n : Int := valueToBase 10 digits
        if negative then -n else n

/-- A number with a fraction or an exponent. -/
def decimal? (negative : Bool) (unsigned : List Char) : Option Decimal :=
  let isMark (c : Char) := c == 'e' || c == 'E'
  let mantissa := unsigned.takeWhile (! isMark ·)
  let whole := mantissa.takeWhile (· ≠ '.')
  do
    let exponent ← exponent? (unsigned.dropWhile (! isMark ·))
    let wholeDigits ← wholeDigits whole
    match mantissa.dropWhile (· ≠ '.') with
    | [] =>
      if unsigned.any isMark then some ⟨negative, valueToBase 10 wholeDigits, exponent⟩ else none
    | _ :: fraction =>
      let digits ← joinDigits Char.isDigit fraction
      some ⟨negative, valueToBase 10 (wholeDigits ++ digits), exponent - digits.length⟩

/-- A number with a fraction or an exponent, rounded to 64 bits, or a special one. Written
numbers that are too great are no numbers. -/
def double? (word : List Char) : Option Double :=
  match splitSign word with
  | (negative, ['i', 'n', 'f']) => some (.infinite negative)
  | (_, ['n', 'a', 'n']) => some .notANumber
  | (negative, unsigned) =>
    ((decimal? negative unsigned).map Double.ofDecimal).filter (· ≠ .infinite false)

/-- Whether a text has the shape of a template, in which `0` stands for any digit. -/
def hasShape : List Char → List Char → Bool
  | [], [] => true
  | '0' :: template, c :: text => c.isDigit && hasShape template text
  | t :: template, c :: text => t == c && hasShape template text
  | _, _ => false

/-- Whether two digits at an index form a number within bounds. -/
def twoDigits (text : List Char) (index low high : Nat) : Bool :=
  let n := valueToBase 10 ((text.drop index).take 2)
  low ≤ n && n ≤ high

/-- The number of days of a month. -/
def daysInMonth (year month : Nat) : Nat :=
  if month = 2 then
    if year % 4 = 0 && (year % 100 ≠ 0 || year % 400 = 0) then 29 else 28
  else if month ∈ [4, 6, 9, 11] then 30 else 31

/-- Whether a text is a date. -/
def isDate (text : List Char) : Bool :=
  hasShape "0000-00-00".toList text && twoDigits text 5 1 12 &&
    twoDigits text 8 1 (daysInMonth (valueToBase 10 (text.take 4))
      (valueToBase 10 ((text.drop 5).take 2)))

/-- Whether a text is a time of day. -/
def isTime (text : List Char) : Bool :=
  hasShape "00:00:00".toList (text.take 8) && twoDigits text 0 0 23 && twoDigits text 3 0 59 &&
    twoDigits text 6 0 60 &&
    match text.drop 8 with
    | [] => true
    | '.' :: digits => !digits.isEmpty && digits.all Char.isDigit
    | _ => false

/-- Whether a text is the offset of a time zone. -/
def isOffset (text : List Char) : Bool :=
  text == ['Z'] || text == ['z'] ||
    match text with
    | sign :: rest =>
      (sign == '+' || sign == '-') && hasShape "00:00".toList rest && twoDigits rest 0 0 23 &&
        twoDigits rest 3 0 59
    | [] => false

/-- A time of day whose second has at most nine digits behind the point, with no zeros at their
end. -/
def canonicalTime (time : List Char) : List Char :=
  match Decimal.dropTrailingZeros ((time.drop 9).take 9) with
  | [] => time.take 8
  | fraction => time.take 8 ++ '.' :: fraction

/-- An offset in its usual form: no offset has the sign of a positive one. -/
def canonicalOffset (offset : List Char) : List Char :=
  if offset = ['z'] then ['Z'] else if offset = "-00:00".toList then "+00:00".toList else offset

/-- A date, a time of day or both, the latter with or without an offset. -/
def moment? (word : List Char) : Option Value :=
  if isDate word then some (.text (String.ofList word))
  else if isTime word then some (.text (String.ofList (canonicalTime word)))
  else if isDate (word.take 10) then
    match word.drop 10 with
    | mark :: rest =>
      let isClock (c : Char) := c.isDigit || c == ':' || c == '.'
      let time := rest.takeWhile isClock
      let offset := rest.dropWhile isClock
      if (mark == 'T' || mark == 't' || mark == ' ') && isTime time &&
          (offset.isEmpty || isOffset offset) then
        some (.text (String.ofList
          (word.take 10 ++ 'T' :: canonicalTime time ++ canonicalOffset offset)))
      else none
    | [] => none
  else none

/-- Whether a character may stand in a scalar. -/
def isScalarChar (c : Char) : Bool :=
  c.isAlphanum || c == '_' || c == '+' || c == '-' || c == '.' || c == ':'

/-- Splits off the word of a scalar, with the time of day behind a date and a blank. -/
def scalarWord (input : List Char) : List Char × List Char :=
  let word := input.takeWhile isScalarChar
  let rest := input.dropWhile isScalarChar
  match rest with
  | ' ' :: c :: next =>
    if isDate word && c.isDigit then
      (word ++ ' ' :: (c :: next).takeWhile isScalarChar, (c :: next).dropWhile isScalarChar)
    else (word, rest)
  | _ => (word, rest)

/-- Reads a truth value, a number or a date. -/
def scalar : Reader Value := fun input =>
  match scalarWord input with
  | (word, rest) =>
    let value :=
      if word = "true".toList then some (.bool true)
      else if word = "false".toList then some (.bool false)
      else (integer? word).or (((double? word).map .double).or (moment? word))
    value.map fun value => (value, rest)

end Sumscript.Toml
