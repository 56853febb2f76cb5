import Sumscript.Text.Characters
import Sumscript.Text.Number

/-! # Values of settings and the paths to them

Before settings are decoded they are a tree of values. Tables hold each key once.
-/

namespace Sumscript

/-- A value of a setting. -/
inductive Value where
  | nothing
  | bool (value : Bool)
  | integer (value : Int)
  | double (value : Double)
  | text (value : String)
  | list (items : List Value)
  | table (entries : List (String × Value))
deriving Repr, Inhabited

namespace Value

/-- Entries in which a key has a new value; a new key comes last. -/
def setKey {α : Type} (key : String) (value : α) : List (String × α) → List (String × α)
  | [] => [(key, value)]
  | (other, old) :: rest =>
    if other = key then (key, value) :: rest else (other, old) :: setKey key value rest

/-- The entries of a table; other values have none. -/
def entries : Value → List (String × Value)
  | .table entries => entries
  | _ => []

/-- The items of a list; other values have none. -/
def items : Value → List Value
  | .list items => items
  | _ => []

end Value

/-! ## Key paths

A key path names a place in a tree of values: a key, then keys behind dots and list indices in
brackets. Setting a path makes the tables and lists that it passes through. A table that is set
where a table stands is merged into it, key by key; everything else replaces what it meets. The
case of letters in keys does not matter: tables hold keys in lower case.
-/

/-- The lower-case form of a character in a key. Beyond ASCII, only the Kelvin sign has an ASCII
letter as its lower-case form; other characters occur in no setting and are kept. -/
def lowerKeyChar (c : Char) : Char :=
  if c == '\u212A' then 'k' else c.toLower

/-- A key in lower case. -/
def lowerKey (key : String) : String :=
  String.ofList (key.toList.map lowerKeyChar)

/-- A step below the first key of a path. -/
inductive PathStep where
  | key (name : String)
  | index (position : Int)
deriving DecidableEq, Repr, Inhabited

/-- A key and the steps behind it. -/
structure KeyPath where
  head : String
  steps : List PathStep
deriving DecidableEq, Repr, Inhabited

namespace KeyPath

/-- Whether a character may stand in a key. -/
def isKeyChar (c : Char) : Bool :=
  c.isAlphanum || c == '_' || c == '-' || c == ' '

/-- A list index with blanks around it. -/
def index? (chars : List Char) : Option Int :=
  let inner := ((chars.dropWhile isBlankOrTab).reverse.dropWhile isBlankOrTab).reverse
  match inner with
  | '+' :: _ => none
  | inner => (Numeral.int64? inner).map Int64.toInt

/-- The steps written behind a key; `fuel` bounds their number. -/
def steps? : Nat → List Char → Option (List PathStep)
  | _, [] => some []
  | 0, _ => none
  | fuel + 1, '.' :: rest =>
    match rest.takeWhile isKeyChar with
    | [] => none
    | name =>
      (steps? fuel (rest.dropWhile isKeyChar)).map (.key (lowerKey (String.ofList name)) :: ·)
  | fuel + 1, '[' :: rest =>
    match index? (rest.takeWhile (· ≠ ']')), rest.dropWhile (· ≠ ']') with
    | some position, ']' :: rest => (steps? fuel rest).map (.index position :: ·)
    | _, _ => none
  | _, _ => none

/-- The path that a text spells. -/
def ofString? (text : String) : Option KeyPath :=
  let chars := text.toList
  match chars.takeWhile isKeyChar with
  | [] => none
  | head => (steps? chars.length (chars.dropWhile isKeyChar)).map
    (⟨lowerKey (String.ofList head), ·⟩)

/-- The path of a single key, whatever its characters. -/
def ofKey (key : String) : KeyPath :=
  ⟨lowerKey key, []⟩

end KeyPath

namespace Value

mutual

/-- A value with another one set over it: a table merges, anything else replaces. -/
def merge (old : Value) : Value → Value
  | .table incoming => mergeAll old incoming
  | incoming => incoming

/-- A value with entries set over it, key by key. Only a table survives the first of them. -/
def mergeAll (old : Value) : List (String × Value) → Value
  | [] => old
  | (key, incoming) :: rest =>
    let entries := old.entries
    let name := lowerKey key
    let changed := merge ((entries.lookup name).getD (.table [])) incoming
    mergeAll (.table (setKey name changed entries)) rest

end

/-- The place in a list that an index names; a negative index counts from the end. -/
def place (position : Int) (length : Nat) : Nat :=
  match position with
  | .ofNat n => n
  | .negSucc k => length - (k + 1)

/-- Items with one changed; the list grows by empty values up to the place. -/
def changeAt (change : Value → Value) : Nat → List Value → List Value
  | 0, [] => [change .nothing]
  | 0, item :: rest => change item :: rest
  | n + 1, [] => .nothing :: changeAt change n []
  | n + 1, item :: rest => item :: changeAt change n rest

/-- A value with another one set at the end of some steps. -/
def setAt (incoming : Value) : List PathStep → Value → Value
  | [], old => old.merge incoming
  | .key name :: steps, old =>
    let entries := old.entries
    .table (setKey name (setAt incoming steps ((entries.lookup name).getD (.table []))) entries)
  | .index position :: steps, old =>
    .list (changeAt (setAt incoming steps) (place position old.items.length) old.items)

end Value

/-- Entries with a value set at a path. -/
def KeyPath.set (path : KeyPath) (value : Value) (entries : List (String × Value)) :
    List (String × Value) :=
  Value.setAt value (.key path.head :: path.steps) (.table entries) |>.entries

end Sumscript
