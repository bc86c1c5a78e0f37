import HackPlatform.Text.Utf8

/-!
# White space

The white space of the Unicode character database, and the three ways in which the readers use it: a line falls into
fields, a line is squeezed to its visible characters, a line is trimmed at both ends.
-/

namespace HackPlatform

/-- Is the code point white space? -/
def isBlank (code : Nat) : Bool :=
  (9 ≤ code && code ≤ 13) || code == 0x20 || code == 0x85 || code == 0xA0 || code == 0x1680 ||
    (0x2000 ≤ code && code ≤ 0x200A) || code == 0x2028 || code == 0x2029 || code == 0x202F || code == 0x205F ||
    code == 0x3000

def Rune.isBlank (r : Rune) : Bool := HackPlatform.isBlank r.code

namespace Bytes

/-- A field of a line: its text and its column, counted in bytes from one. -/
structure Field where
  text : Bytes
  column : Nat
deriving DecidableEq, Repr

/-- Position of the first `//` of a text, counted from `n`. -/
def commentAt (n : Nat) : Bytes → Option Nat
  | 47 :: 47 :: _ => some n
  | _ :: rest => commentAt (n + 1) rest
  | [] => none

/-- The part of a line before its comment. -/
def beforeComment (line : Bytes) : Bytes :=
  match commentAt 0 line with
  | some n => line.take n
  | none => line

/-- Splits runes into fields. `column` is the column of the next rune; `current` holds the bytes of the field that has
been entered, reversed, with its column. -/
def fieldsFrom : Nat → Option (Bytes × Nat) → List Field → List Rune → List Field
  | _, none, done, [] => done.reverse
  | _, some (text, start), done, [] => (⟨text.reverse, start⟩ :: done).reverse
  | column, current, done, r :: rest =>
    let next := column + r.bytes.length
    match r.isBlank, current with
    | true, none => fieldsFrom next none done rest
    | true, some (text, start) => fieldsFrom next none (⟨text.reverse, start⟩ :: done) rest
    | false, none => fieldsFrom next (some (r.bytes.reverse, column)) done rest
    | false, some (text, start) => fieldsFrom next (some (r.bytes.reverse ++ text, start)) done rest

/-- The fields of a line, separated by white space. -/
def fields (line : Bytes) : List Field := fieldsFrom 1 none [] (Rune.decode line)

/-- The line without its white space. -/
def squeeze (line : Bytes) : Bytes :=
  ((Rune.decode line).filter (!·.isBlank)).flatMap Rune.bytes

/-- The line without the white space at its ends. -/
def trim (line : Bytes) : Bytes :=
  let kept := (Rune.decode line).dropWhile Rune.isBlank
  ((kept.reverse.dropWhile Rune.isBlank).reverse).flatMap Rune.bytes

/-- Column of the first visible rune of a line, counted in bytes from one, if there is one. -/
def firstVisible? (line : Bytes) : Option Nat :=
  let runes := Rune.decode line
  if runes.all Rune.isBlank then none
  else some (((runes.takeWhile Rune.isBlank).flatMap Rune.bytes).length + 1)

end Bytes

end HackPlatform
