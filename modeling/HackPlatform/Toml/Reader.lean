import HackPlatform.Toml.Document
import HackPlatform.Toml.Quotation

/-!
# Reading documents

Each reader takes the text at its place and gives what it read and the rest, or nothing if the text is no document.
-/

namespace HackPlatform.Toml

/-- A text without the blanks at its start. -/
def skipBlanks (text : Bytes) : Bytes := text.dropWhile fun b => b == 32 || b == 9

/-- Takes an expected byte. -/
def expect? (expected : UInt8) : Bytes → Option Bytes
  | b :: rest => if b = expected then some rest else none
  | [] => none

def lineEnd? : Bytes → Option Bytes
  | 10 :: rest => some rest
  | 13 :: 10 :: rest => some rest
  | _ => none

/-- Takes a comment up to its line end. The number says how many bytes of a rune are still to be skipped. -/
def comment? : Nat → Bytes → Option Bytes
  | _, [] => some []
  | skip + 1, _ :: rest => comment? skip rest
  | 0, b :: rest =>
    if b = 10 then some (b :: rest)
    else if b = 13 then if rest.head? = some 10 then some rest else none
    else if isPlain b rest then comment? (extraBytes b rest) rest
    else none

/-- May the byte stand in a bare key? -/
def isBareByte (b : UInt8) : Bool := Bytes.isLetter b || Bytes.isDigit b || b == 45 || b == 95

/-- Takes one name of a key: a bare name or a string. -/
def keyName? (text : Bytes) : Option (Bytes × Bytes) :=
  match text with
  | [] => none
  | b :: rest =>
    if b = 34 || b = 39 then readLine? b (b = 34) 0 0 [] rest
    else if isBareByte b then some (text.takeWhile isBareByte, text.dropWhile isBareByte)
    else none

/-- Takes the names of a key that are behind dots; the number bounds how many. -/
def keyNames? : Nat → Key → Bytes → Option (Key × Bytes)
  | 0, _, _ => none
  | bound + 1, done, text =>
    match skipBlanks text with
    | 46 :: rest =>
      match keyName? (skipBlanks rest) with
      | some (name, rest) => keyNames? bound (name :: done) rest
      | none => none
    | rest => some (done.reverse, rest)

/-- Takes a key; the number bounds how many names. -/
def key? (bound : Nat) (text : Bytes) : Option (Key × Bytes) :=
  match keyName? text with
  | some (name, rest) => keyNames? bound [name] rest
  | none => none

def startsWith (word : String) (text : Bytes) : Bool := (ascii word).isPrefixOf text

/-- May the byte stand in a decimal number or a float? -/
def isNumberByte (b : UInt8) : Bool :=
  Bytes.isDigit b || b == 43 || b == 45 || b == 95 || b == 46 || b == 101 || b == 69

/-- Does the byte make a number a float? -/
def isFloatByte (b : UInt8) : Bool := b == 46 || b == 101 || b == 69

/-- Takes the word for infinity or for no number at the end of a number. -/
def floatWord? (digits rest : Bytes) : Option (Value × Bytes) :=
  if startsWith "inf" rest || startsWith "nan" rest then some (.float (digits ++ rest.take 3), rest.drop 3) else none

/-- Takes a decimal number or a float. -/
def decimal? (text : Bytes) : Option (Value × Bytes) :=
  let digits := text.takeWhile isNumberByte
  let rest := text.dropWhile isNumberByte
  match rest with
  | 105 :: _ => floatWord? digits rest
  | 110 :: _ => floatWord? digits rest
  | _ =>
    if digits.isEmpty then none
    else some (if digits.any isFloatByte then .float digits else .integer digits, rest)

/-- The digits of a base, by the letter of its mark. -/
def baseDigit? (mark : UInt8) : Option (UInt8 → Bool) :=
  if mark = 120 then some fun b => (hexValue? b).isSome || b == 95
  else if mark = 111 then some fun b => (48 ≤ b && b ≤ 55) || b == 95
  else if mark = 98 then some fun b => b == 48 || b == 49 || b == 95
  else none

/-- Takes a number. A zero at its start is a number of its own unless a base, a point or an exponent follows. -/
def number? (text : Bytes) : Option (Value × Bytes) :=
  match text with
  | 48 :: mark :: next :: tail =>
    if isFloatByte mark then decimal? text
    else
      match baseDigit? mark with
      | none => some (.integer [48], mark :: next :: tail)
      | some isDigit =>
        some (.integer ([48, mark] ++ (next :: tail).takeWhile isDigit), (next :: tail).dropWhile isDigit)
  | _ => decimal? text

/-- May the byte stand in a date or time? -/
def isMomentByte (b : UInt8) : Bool :=
  Bytes.isDigit b || [45, 84, 116, 58, 46, 43, 90, 122].contains b

/-- Takes a date or time. One blank may stand before the hour. The number says how many bytes are still to be taken
without looking at them. -/
def moment : Bool → Nat → Bytes → Bytes → Bytes × Bytes
  | _, _, done, [] => (done.reverse, [])
  | spaced, skip + 1, done, b :: rest => moment spaced skip (b :: done) rest
  | spaced, 0, done, b :: rest =>
    if isMomentByte b then moment spaced 0 (b :: done) rest
    else if b = 32 && !spaced && (rest.head?.any Bytes.isDigit) then moment true 2 (b :: done) rest
    else (done.reverse, b :: rest)

/-- Is this the start of a date or time? -/
def isMoment (text : Bytes) : Bool :=
  let digits := (text.take 5).takeWhile Bytes.isDigit
  (digits.length == 2 && (text.drop 2).head? == some 58) || (digits.length == 4 && (text.drop 4).head? == some 45)

/-- Takes a number, a date or a time. -/
def numberOrMoment? (text : Bytes) : Option (Value × Bytes) :=
  match text with
  | 105 :: _ => floatWord? [] text
  | 110 :: _ => floatWord? [] text
  | _ =>
    if isMoment text then
      let (digits, rest) := moment false 0 [] text
      some (.moment digits, rest)
    else number? text

/-- Takes blanks, comments and line ends; the number bounds how many lines. -/
def skipLines? : Nat → Bytes → Option Bytes
  | 0, text => some text
  | bound + 1, text =>
    let text := skipBlanks text
    let afterComment := match text with
      | 35 :: rest => comment? 0 rest
      | _ => some text
    match afterComment with
    | none => none
    | some [] => some []
    | some (b :: rest) =>
      if b = 10 || b = 13 then
        match lineEnd? (b :: rest) with
        | some rest => skipLines? bound rest
        | none => none
      else some (b :: rest)

mutual

/-- Takes a value. The number bounds the depth and the length of nested values; twice the length of the text is enough,
since each of them takes a byte. -/
def value? : Nat → Bytes → Option (Value × Bytes)
  | 0, _ => none
  | bound + 1, text =>
    match text with
    | [] => none
    | 34 :: _ => (readString? 34 text).map fun (content, rest) => (.text content, rest)
    | 39 :: _ => (readString? 39 text).map fun (content, rest) => (.text content, rest)
    | 116 :: _ => if startsWith "true" text then some (.boolean true, text.drop 4) else none
    | 102 :: _ => if startsWith "false" text then some (.boolean false, text.drop 5) else none
    | 91 :: rest => (items? bound [] rest).map fun (items, rest) => (.array items, rest)
    | 123 :: rest => (pairs? bound [] rest).map fun (pairs, rest) => (.table pairs, rest)
    | _ => numberOrMoment? text

/-- Takes the items of an array up to its closing bracket, after those that have been taken, reversed. -/
def items? : Nat → List Value → Bytes → Option (List Value × Bytes)
  | 0, _, _ => none
  | bound + 1, done, text =>
    match skipLines? bound text with
    | none => none
    | some [] => none
    | some (b :: rest) =>
      if b = 93 then some (done.reverse, rest)
      else
        let next := if done.isEmpty then some (b :: rest)
          else if b = 44 then skipLines? bound rest
          else none
        match next with
        | none => none
        | some [] => none
        | some (c :: tail) =>
          -- a comma may stand behind the last item
          if c = 93 then some (done.reverse, tail)
          else match value? bound (c :: tail) with
            | none => none
            | some (item, rest) => items? bound (item :: done) rest

/-- Takes the pairs of a table inside of braces, after those that have been taken, reversed. -/
def pairs? : Nat → List (Key × Value) → Bytes → Option (List (Key × Value) × Bytes)
  | 0, _, _ => none
  | bound + 1, done, text =>
    match skipBlanks text with
    | [] => none
    | b :: rest =>
      if b = 125 then some (done.reverse, rest)
      else
        let next := if done.isEmpty then some (b :: rest)
          else if b = 44 then some (skipBlanks rest)
          else none
        match next with
        | none => none
        | some text =>
          -- unlike in an array, a pair has to follow a comma
          match pair? bound text with
          | none => none
          | some (p, rest) => pairs? bound (p :: done) rest

/-- Takes a key and its value. -/
def pair? : Nat → Bytes → Option ((Key × Value) × Bytes)
  | 0, _ => none
  | bound + 1, text =>
    match key? bound text with
    | none => none
    | some (key, rest) =>
      match expect? 61 (skipBlanks rest) with
      | none => none
      | some rest =>
        match value? bound (skipBlanks rest) with
        | none => none
        | some (value, rest) => some ((key, value), rest)

end

/-- Takes the header of a table; the number bounds how many names. -/
def header? (bound : Nat) (text : Bytes) : Option (Expression × Bytes) :=
  match text with
  | 91 :: 91 :: rest =>
    match key? bound (skipBlanks rest) with
    | none => none
    | some (key, rest) =>
      ((expect? 93 (skipBlanks rest)).bind (expect? 93)).map fun rest => (.listedTable key, rest)
  | 91 :: rest =>
    match key? bound (skipBlanks rest) with
    | none => none
    | some (key, rest) => (expect? 93 (skipBlanks rest)).map fun rest => (.table key, rest)
  | _ => none

/-- Takes the expression of a line, if it holds one. The number bounds what is nested in it. -/
def expression? (bound : Nat) (text : Bytes) : Option (Option Expression × Bytes) :=
  match skipBlanks text with
  | [] => some (none, [])
  | b :: rest =>
    let text := b :: rest
    if b = 35 then (comment? 0 rest).map fun rest => (none, rest)
    else if b = 10 || b = 13 then some (none, text)
    else
      let read := if b = 91 then header? bound text
        else (pair? bound text).map fun ((key, value), rest) => (.pair key value, rest)
      match read with
      | none => none
      | some (e, rest) =>
        match skipBlanks rest with
        | 35 :: tail => (comment? 0 tail).map fun rest => (some e, rest)
        | rest => some (some e, rest)

/-- Reads the lines of a document, after the expressions that have been read, reversed. The first number bounds what is
nested in a line, the second how many lines. -/
def readLines (nesting : Nat) : Nat → List Expression → Bytes → Document
  | 0, done, _ => ⟨done.reverse, false⟩
  | bound + 1, done, text =>
    match expression? nesting text with
    | none => ⟨done.reverse, false⟩
    | some (e, rest) =>
      let done := e.toList ++ done
      match rest with
      | [] => ⟨done.reverse, true⟩
      | _ =>
        match lineEnd? rest with
        | none => ⟨done.reverse, false⟩
        | some [] => ⟨done.reverse, true⟩
        | some next => readLines nesting bound done next

def Document.read (text : Bytes) : Document := readLines (2 * text.length + 3) (text.length + 1) [] text

end HackPlatform.Toml
