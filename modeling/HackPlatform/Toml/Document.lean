import HackPlatform.Text.Numeral

/-!
# Documents of settings

A document is a list of expressions: key-value pairs, and headers that name the table to which the pairs after them belong.
Numbers keep their written form, since only those that are used have to make sense.
-/

namespace HackPlatform.Toml

/-- A key: the names from the outermost table inwards. It has at least one. -/
abbrev Key := List Bytes

inductive Value where
  | text (content : Bytes)
  | boolean (b : Bool)
  | integer (digits : Bytes)
  | float (digits : Bytes)
  /-- A date, a time, or both. -/
  | moment (digits : Bytes)
  | array (items : List Value)
  /-- A table that is written inside of braces. -/
  | table (pairs : List (Key × Value))

inductive Expression where
  /-- A key and its value. -/
  | pair (key : Key) (value : Value)
  /-- The header of a table. -/
  | table (key : Key)
  /-- The header of a table that is one of a list. -/
  | listedTable (key : Key)

/-- What reading a text gives: the expressions up to the first mistake, and whether there was none. -/
structure Document where
  expressions : List Expression
  complete : Bool

def isUnderscore (b : UInt8) : Bool := b == 95

/-- The digits without underscores. Each underscore stands between two other bytes. -/
def dropUnderscores? (digits : Bytes) : Option Bytes :=
  let unsigned := match digits with
    | 43 :: rest => rest
    | 45 :: rest => rest
    | _ => digits
  let lonely := (Bytes.pieces 95 unsigned).any List.isEmpty
  if !unsigned.isEmpty && lonely then none else some (digits.filter (!isUnderscore ·))

/-- The value of digits in a base, if they are digits and the value fits 64 bits. -/
def baseValue? (base : Nat) (digits : Bytes) : Option Int :=
  if digits.isEmpty || digits.any isUnderscore then none
  else match Numeral.readDigits base 0 digits with
    | .ok n => if Numeral.fitsInt64 n then some n else none
    | .error _ => none

/-- Does a decimal number start with a zero that is not its only digit? -/
def hasLeadingZero : Bytes → Bool
  | 43 :: 48 :: _ :: _ => true
  | 45 :: 48 :: _ :: _ => true
  | 48 :: _ :: _ => true
  | _ => false

/-- The value of an integer: decimal digits with an optional sign, or digits behind `0x`, `0o` or `0b`. -/
def integerValue? (digits : Bytes) : Option Int :=
  match digits with
  | 48 :: 120 :: first :: rest => (dropUnderscores? (first :: rest)).bind (baseValue? 16)
  | 48 :: 111 :: first :: rest => (dropUnderscores? (first :: rest)).bind (baseValue? 8)
  | 48 :: 98 :: first :: rest => (dropUnderscores? (first :: rest)).bind (baseValue? 2)
  | _ =>
    match dropUnderscores? digits with
    | none => none
    | some cleaned => if hasLeadingZero cleaned then none else Numeral.readInt? cleaned

end HackPlatform.Toml
