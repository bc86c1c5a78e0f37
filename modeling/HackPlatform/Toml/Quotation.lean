import HackPlatform.Text.Utf8

/-!
# Strings of a document

A string is written between double quotes, with escapes, or between apostrophes, without. Either may be tripled, and then holds
line ends. Strings are UTF-8 without control characters.
-/

namespace HackPlatform.Toml

/-- May the byte, with what follows, stand in a string or comment for itself? Line ends may not. -/
def isPlain (b : UInt8) (rest : Bytes) : Bool :=
  if b < 0x80 then b == 9 || (32 ≤ b && b < 127) else !(Rune.decodeHead b rest).isUndecodable

/-- The number of bytes, less one, of the rune at the start of a text. -/
def extraBytes (b : UInt8) (rest : Bytes) : Nat := (Rune.decodeHead b rest).bytes.length - 1

def hexValue? (b : UInt8) : Option Nat :=
  if 48 ≤ b && b ≤ 57 then some (b.toNat - 48)
  else if 97 ≤ b && b ≤ 102 then some (b.toNat - 87)
  else if 65 ≤ b && b ≤ 70 then some (b.toNat - 55)
  else none

/-- The value of the first `count` hexadecimal digits of a text. -/
def hexPrefix? : Nat → Nat → Bytes → Option Nat
  | 0, n, _ => some n
  | _ + 1, _, [] => none
  | count + 1, n, b :: rest =>
    match hexValue? b with
    | some d => hexPrefix? count (16 * n + d) rest
    | none => none

/-- The encoding of the code point that the first `count` hexadecimal digits of a text give. -/
def codePoint? (count : Nat) (text : Bytes) : Option (Bytes × Nat) :=
  match hexPrefix? count 0 text with
  | none => none
  | some code =>
    if code ≤ Rune.maxCode && !(0xD800 ≤ code && code < 0xE000) then some (Rune.encode code, count + 1) else none

/-- What an escape stands for, and how many bytes it takes behind its backslash. -/
def escape? : Bytes → Option (Bytes × Nat)
  | 34 :: _ => some ([34], 1)
  | 92 :: _ => some ([92], 1)
  | 98 :: _ => some ([8], 1)
  | 101 :: _ => some ([27], 1)
  | 102 :: _ => some ([12], 1)
  | 110 :: _ => some ([10], 1)
  | 114 :: _ => some ([13], 1)
  | 116 :: _ => some ([9], 1)
  | 117 :: rest => codePoint? 4 rest
  | 85 :: rest => codePoint? 8 rest
  | _ => none

/-- Reads a string up to its closing mark, which escapes may hide if they are allowed. The first two numbers say how
many bytes are to be kept, and then dropped, before anything else is looked at. The content so far is reversed. Gives
the content and the rest. -/
def readLine? (mark : UInt8) (escapes : Bool) : Nat → Nat → Bytes → Bytes → Option (Bytes × Bytes)
  | _, _, _, [] => none
  | keep + 1, drop, done, b :: rest => readLine? mark escapes keep drop (b :: done) rest
  | 0, drop + 1, done, _ :: rest => readLine? mark escapes 0 drop done rest
  | 0, 0, done, b :: rest =>
    if b = mark then some (done.reverse, rest)
    else if escapes && b = 92 then
      match escape? rest with
      | some (content, taken) => readLine? mark escapes 0 taken (content.reverse ++ done) rest
      | none => none
    else if isPlain b rest then readLine? mark escapes (extraBytes b rest) 0 (b :: done) rest
    else none

/-- Is the byte white space of a line, or part of a line end? A carriage return is one only before a line feed. -/
def isLineBlank (b : UInt8) (rest : Bytes) : Bool :=
  b == 32 || b == 9 || b == 10 || (b == 13 && rest.head? == some 10)

def lineEnds (text : Bytes) : Bool :=
  match text.dropWhile fun b => b == 32 || b == 9 with
  | 10 :: _ => true
  | 13 :: 10 :: _ => true
  | _ => false

/-- The end of a tripled string, behind its third mark: up to two more marks belong to the content. -/
def closeTriple (mark : UInt8) (done rest : Bytes) : Option (Bytes × Bytes) :=
  match rest with
  | a :: b :: c :: tail =>
    if a = mark && b = mark && c = mark then none
    else if a = mark && b = mark then some ((b :: a :: done).reverse, c :: tail)
    else if a = mark then some ((a :: done).reverse, b :: c :: tail)
    else some (done.reverse, rest)
  | [a, b] =>
    if a = mark && b = mark then some ((b :: a :: done).reverse, [])
    else if a = mark then some ((a :: done).reverse, [b])
    else some (done.reverse, rest)
  | [a] => if a = mark then some ((a :: done).reverse, []) else some (done.reverse, rest)
  | [] => some (done.reverse, [])

/-- Reads a tripled string up to its closing marks. While `trimming`, white space and line ends are dropped. -/
def readLines? (mark : UInt8) (escapes : Bool) : Bool → Nat → Nat → Bytes → Bytes → Option (Bytes × Bytes)
  | _, _, _, _, [] => none
  | trimming, keep + 1, drop, done, b :: rest => readLines? mark escapes trimming keep drop (b :: done) rest
  | trimming, 0, drop + 1, done, _ :: rest => readLines? mark escapes trimming 0 drop done rest
  | trimming, 0, 0, done, b :: rest =>
    if trimming && isLineBlank b rest then readLines? mark escapes true 0 0 done rest
    else if b = mark && rest.take 2 == [mark, mark] then closeTriple mark done (rest.drop 2)
    else if escapes && b = 92 then
      if lineEnds rest then readLines? mark escapes true 0 0 done rest
      else match escape? rest with
        | some (content, taken) => readLines? mark escapes false 0 taken (content.reverse ++ done) rest
        | none => none
    else if b = 10 then readLines? mark escapes false 0 0 (b :: done) rest
    else if b = 13 then
      if rest.head? = some 10 then readLines? mark escapes false 1 0 (b :: done) rest else none
    else if isPlain b rest then readLines? mark escapes false (extraBytes b rest) 0 (b :: done) rest
    else none

/-- The content of a tripled string without a line end right at its start. -/
def dropFirstLineEnd : Bytes → Bytes
  | 13 :: 10 :: rest => rest
  | 10 :: rest => rest
  | text => text

/-- Reads a string that may be tripled. The mark at its start has been looked at, but not been taken. -/
def readString? (mark : UInt8) (text : Bytes) : Option (Bytes × Bytes) :=
  let escapes := mark == 34
  if text.take 3 == [mark, mark, mark] then
    readLines? mark escapes false 0 0 [] (dropFirstLineEnd (text.drop 3))
  else readLine? mark escapes 0 0 [] (text.drop 1)

end HackPlatform.Toml
