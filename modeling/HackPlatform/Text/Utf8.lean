import HackPlatform.Text.Bytes

/-!
# Characters of a byte string

A byte string is read as UTF-8, one rune at a time. A byte that starts no valid sequence is a rune of its own: it
stands for the replacement character and is one byte wide. Nothing is lost: the bytes of the runes of a text,
concatenated, are the text.
-/

namespace HackPlatform

/-- One decoded character: its code point and the bytes that it was read from. -/
structure Rune where
  code : Nat
  bytes : Bytes
deriving DecidableEq, Repr

namespace Rune

/-- The code point that stands for an undecodable byte. -/
def replacement : Nat := 0xFFFD

def maxCode : Nat := 0x10FFFF

/-- The rune of a byte that starts no valid sequence. -/
def undecodable (b : UInt8) : Rune := ⟨replacement, [b]⟩

/-- Was the rune read from a byte that starts no valid sequence? -/
def isUndecodable (r : Rune) : Bool := r.code == replacement && r.bytes.length == 1

/-- Number of bytes of the sequence that a first byte announces; `1` for a byte that announces none. -/
def announced (first : UInt8) : Nat :=
  if first < 0xC2 then 1
  else if first < 0xE0 then 2
  else if first < 0xF0 then 3
  else if first < 0xF5 then 4
  else 1

def isContinuation (b : UInt8) : Bool := 0x80 ≤ b && b ≤ 0xBF

/-- May `second` follow `first`? Four first bytes narrow the range, so that no code point has two encodings and none is
a surrogate or too large. -/
def mayFollow (first second : UInt8) : Bool :=
  (if first = 0xE0 then 0xA0 else if first = 0xF0 then 0x90 else 0x80) ≤ second &&
    second ≤ (if first = 0xED then 0x9F else if first = 0xF4 then 0x8F else 0xBF)

/-- The six payload bits of a continuation byte. -/
def payload (b : UInt8) : Nat := b.toNat % 64

/-- The rune at the start of the text `first :: rest`. -/
def decodeHead (first : UInt8) (rest : Bytes) : Rune :=
  match announced first, rest with
  | 2, b :: _ =>
    if mayFollow first b then ⟨first.toNat % 32 * 64 + payload b, [first, b]⟩ else undecodable first
  | 3, b :: c :: _ =>
    if mayFollow first b && isContinuation c then
      ⟨(first.toNat % 16 * 64 + payload b) * 64 + payload c, [first, b, c]⟩
    else undecodable first
  | 4, b :: c :: d :: _ =>
    if mayFollow first b && isContinuation c && isContinuation d then
      ⟨((first.toNat % 8 * 64 + payload b) * 64 + payload c) * 64 + payload d, [first, b, c, d]⟩
    else undecodable first
  | _, _ => if first < 0x80 then ⟨first.toNat, [first]⟩ else undecodable first

/-- Decodes a text, after skipping the bytes of a rune that has been read already. The accumulator is reversed. -/
def decodeFrom : Nat → List Rune → Bytes → List Rune
  | _, done, [] => done.reverse
  | skip + 1, done, _ :: rest => decodeFrom skip done rest
  | 0, done, b :: rest =>
    let r := decodeHead b rest
    decodeFrom (r.bytes.length - 1) (r :: done) rest

def decode (text : Bytes) : List Rune := decodeFrom 0 [] text

/-- Does the text begin with a whole rune? A text that may still grow into a valid sequence does not. -/
def startsWhole : Bytes → Bool
  | [] => false
  | first :: rest =>
    announced first ≤ rest.length + 1 ||
      match rest with
      | b :: c :: _ => !mayFollow first b || !isContinuation c
      | [b] => !mayFollow first b
      | [] => false

/-- Decodes the start of a stream that may go on, after skipping bytes that have been read already: the runes, and the
bytes that have to wait for more. -/
def decodeOpenFrom : Nat → List Rune → Bytes → List Rune × Bytes
  | _, done, [] => (done.reverse, [])
  | skip + 1, done, _ :: rest => decodeOpenFrom skip done rest
  | 0, done, b :: rest =>
    if startsWhole (b :: rest) then
      let r := decodeHead b rest
      decodeOpenFrom (r.bytes.length - 1) (r :: done) rest
    else (done.reverse, b :: rest)

/-- Decodes the start of a stream that may go on. -/
def decodeOpen (text : Bytes) : List Rune × Bytes := decodeOpenFrom 0 [] text

/-- The UTF-8 encoding of a code point. -/
def encode (code : Nat) : Bytes :=
  if code < 0x80 then [code.toUInt8]
  else if code < 0x800 then [(0xC0 + code / 64).toUInt8, (0x80 + code % 64).toUInt8]
  else if code < 0x10000 then
    [(0xE0 + code / 4096).toUInt8, (0x80 + code / 64 % 64).toUInt8, (0x80 + code % 64).toUInt8]
  else
    [(0xF0 + code / 262144).toUInt8, (0x80 + code / 4096 % 64).toUInt8, (0x80 + code / 64 % 64).toUInt8,
      (0x80 + code % 64).toUInt8]

end Rune

/-!
## Lower case

Words that a user types are compared with names in lower case, byte by byte. The names are ASCII, so of a letter outside of
ASCII only the length of its lower case counts, unless that is an ASCII letter. The table therefore lists the letters
whose lower case has another length than they have, as the Unicode character database, version 17, gives it.
-/

/-- The letters whose lower case has an encoding of another length, with their lower case. -/
def resizedLetters : List (Nat × Nat) := [
  (0x0130, 0x0069), (0x023A, 0x2C65), (0x023E, 0x2C66), (0x1E9E, 0x00DF), (0x2126, 0x03C9), (0x212A, 0x006B),
  (0x212B, 0x00E5), (0x2C62, 0x026B), (0x2C64, 0x027D), (0x2C6D, 0x0251), (0x2C6E, 0x0271), (0x2C6F, 0x0250),
  (0x2C70, 0x0252), (0x2C7E, 0x023F), (0x2C7F, 0x0240), (0xA78D, 0x0265), (0xA7AA, 0x0266), (0xA7AB, 0x025C),
  (0xA7AC, 0x0261), (0xA7AD, 0x026C), (0xA7AE, 0x026A), (0xA7B0, 0x029E), (0xA7B1, 0x0287), (0xA7B2, 0x029D),
  (0xA7C5, 0x0282), (0xA7CB, 0x0264), (0xA7DC, 0x019B)]

/-- The lower case of a code point, if it is an ASCII letter or one whose length changes. Others are kept. -/
def Rune.lowerCode (code : Nat) : Nat :=
  if 65 ≤ code && code ≤ 90 then code + 32 else (resizedLetters.lookup code).getD code

/-- The text with the letters in lower case that are in ASCII or change their length. Bytes that cannot be decoded become
replacement characters. -/
def Bytes.lowerRunes (text : Bytes) : Bytes :=
  (Rune.decode text).flatMap fun r => Rune.encode (Rune.lowerCode r.code)

end HackPlatform
