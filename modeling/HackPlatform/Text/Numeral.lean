import HackPlatform.Text.Bytes

/-!
# Numerals

Decimal text of integers, and the readers of numbers: digits alone, digits with a sign, and numbers whose base is given
by how they start. Machine integers have 64 bits; a number that does not fit is told apart from a text that is no number.
-/

namespace HackPlatform.Numeral

def maxInt64 : Int := 9223372036854775807

def minInt64 : Int := -9223372036854775808

def maxUInt64 : Nat := 18446744073709551615

/-- The decimal digits of a natural number. -/
def ofNat (n : Nat) : Bytes :=
  if n < 10 then [(48 + n).toUInt8] else ofNat (n / 10) ++ [(48 + n % 10).toUInt8]

/-- The decimal text of an integer. -/
def ofInt : Int → Bytes
  | .ofNat n => ofNat n
  | .negSucc n => 45 :: ofNat (n + 1)

/-- The last `width` binary digits of a number. -/
def binary : Nat → Nat → Bytes
  | 0, _ => []
  | width + 1, n => binary width (n / 2) ++ [(48 + n % 2).toUInt8]

/-- Pads a text on the left with spaces to a width. -/
def padLeft (width : Nat) (text : Bytes) : Bytes := List.replicate (width - text.length) 32 ++ text

/-- The value of a text of decimal digits. -/
def value (digits : Bytes) : Nat := digits.foldl (fun n b => 10 * n + (b.toNat - 48)) 0

/-- Reads a non-empty text of decimal digits. -/
def readNat? (text : Bytes) : Option Nat :=
  if !text.isEmpty && text.all Bytes.isDigit then some (value text) else none

def fitsInt64 (n : Int) : Bool := minInt64 ≤ n && n ≤ maxInt64

/-- Reads decimal digits after an optional sign; the number must fit 64 bits. -/
def readInt? (text : Bytes) : Option Int :=
  let unsigned := match text with
    | 43 :: rest => (readNat? rest).map Int.ofNat
    | 45 :: rest => (readNat? rest).map fun n => -(n : Int)
    | _ => (readNat? text).map Int.ofNat
  unsigned.filter fitsInt64

/-- Why a text is not a number. -/
inductive Fault where
  | invalid
  | outOfRange
deriving DecidableEq

def Fault.message : Fault → Bytes
  | invalid => ascii "invalid syntax"
  | outOfRange => ascii "value out of range"

/-- The value of a digit or letter in bases up to 36. -/
def digitValue? (b : UInt8) : Option Nat :=
  let c := Bytes.lowerByte b
  if Bytes.isDigit b then some (b.toNat - 48)
  else if 97 ≤ c && c ≤ 122 then some (c.toNat - 87)
  else none

/-- Reads digits in a base from the left. Underscores are skipped. The number is out of range as soon as it passes 64
bits, even if a later byte is no digit. -/
def readDigits (base : Nat) : Nat → Bytes → Except Fault Nat
  | n, [] => .ok n
  | n, b :: rest =>
    if b = 95 then readDigits base n rest
    else match digitValue? b with
      | none => .error .invalid
      | some d =>
        if base ≤ d then .error .invalid
        else if maxUInt64 < n * base + d then .error .outOfRange
        else readDigits base (n * base + d) rest

/-- Do underscores stand only between digits? `digitBefore` says whether a digit, or the mark of the base, came last. -/
def underscoresOk : Bool → Bytes → Bool
  | _, [] => true
  | digitBefore, b :: rest =>
    if b = 95 then digitBefore && !rest.isEmpty && rest.head? != some 95 && underscoresOk false rest
    else underscoresOk true rest

/-- The base that the start of an unsigned number names, the digits that follow, and whether a mark such as `0x` stood
before them. A zero that starts no such mark announces base eight. -/
def base (text : Bytes) : Nat × Bytes × Bool :=
  match text with
  | 48 :: m :: rest =>
    let mark := Bytes.lowerByte m
    if rest.isEmpty then (8, m :: rest, true)
    else if mark = 98 then (2, rest, true)
    else if mark = 111 then (8, rest, true)
    else if mark = 120 then (16, rest, true)
    else (8, m :: rest, true)
  | [48] => (8, [], true)
  | _ => (10, text, false)

/-- Reads an unsigned number whose base is given by its start. -/
def readUnsigned (text : Bytes) : Except Fault Nat :=
  if text.isEmpty then .error .invalid
  else
    let (b, digits, marked) := base text
    match readDigits b 0 digits with
    | .error f => .error f
    | .ok n => if underscoresOk marked digits then .ok n else .error .invalid

/-- Reads a 64-bit integer: an optional sign, then an unsigned number whose base is given by its start. -/
def readAnyBase (text : Bytes) : Except Fault Int :=
  let (negative, digits) := match text with
    | 43 :: rest => (false, rest)
    | 45 :: rest => (true, rest)
    | _ => (false, text)
  match readUnsigned digits with
  | .error f => .error f
  | .ok n =>
    let v : Int := if negative then -(n : Int) else n
    if fitsInt64 v then .ok v else .error .outOfRange

/-- Reads a truth value: `1`, `t` or `true` and `0`, `f` or `false`, the words in lower case, upper case or capitalised. -/
def readBool? (text : Bytes) : Option Bool :=
  if ["1", "t", "T", "true", "TRUE", "True"].any fun s => text == ascii s then some true
  else if ["0", "f", "F", "false", "FALSE", "False"].any fun s => text == ascii s then some false
  else none

end HackPlatform.Numeral
