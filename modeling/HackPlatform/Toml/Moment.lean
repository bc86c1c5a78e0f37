import HackPlatform.Text.Bytes

/-!
# Dates and times

A moment is a date, a time of day, or a date with a time of day. The last may also say how far its clock is from universal
time. A date is one of the calendar; a minute may have a leap second.
-/

namespace HackPlatform.Toml

inductive Moment where
  /-- A date, such as `2024-02-29`. -/
  | date
  /-- A time of day, such as `23:59:60` or `12:00:00.5`. -/
  | time
  /-- A date with a time of day, by a clock that is not named. -/
  | dateTime
  /-- A date with a time of day, by a clock of a known distance from universal time. -/
  | instant
deriving DecidableEq

namespace Moment

/-- Takes two digits, if their value is at most `most`. -/
def takeNumber? (most : Nat) : Bytes → Option (Nat × Bytes)
  | tens :: ones :: rest =>
    if Bytes.isDigit tens && Bytes.isDigit ones then
      let n := 10 * (tens.toNat - 48) + (ones.toNat - 48)
      if n ≤ most then some (n, rest) else none
    else none
  | _ => none

/-- Takes a given byte. -/
def takeMark? (mark : UInt8) : Bytes → Option Bytes
  | b :: rest => if b = mark then some rest else none
  | [] => none

/-- Does the year have a 29th of February? -/
def isLeapYear (year : Nat) : Bool := year % 4 == 0 && (year % 100 != 0 || year % 400 == 0)

def daysIn (year month : Nat) : Nat :=
  if month = 2 then if isLeapYear year then 29 else 28
  else if month = 4 || month = 6 || month = 9 || month = 11 then 30
  else 31

/-- What follows a date at the start of a text. -/
def afterDate? (text : Bytes) : Option Bytes := do
  let (century, text) ← takeNumber? 99 text
  let (year, text) ← takeNumber? 99 text
  let text ← takeMark? 45 text
  let (month, text) ← takeNumber? 12 text
  let text ← takeMark? 45 text
  let (day, text) ← takeNumber? 31 text
  if 0 < month && 0 < day && day ≤ daysIn (100 * century + year) month then some text else none

/-- What follows the fraction of a second, which may be left out. A point is followed by a digit. -/
def afterFraction? : Bytes → Option Bytes
  | 46 :: rest => if rest.head?.any Bytes.isDigit then some (rest.dropWhile Bytes.isDigit) else none
  | text => some text

/-- What follows a time of day at the start of a text. -/
def afterTime? (text : Bytes) : Option Bytes := do
  let (_, text) ← takeNumber? 23 text
  let text ← takeMark? 58 text
  let (_, text) ← takeNumber? 59 text
  let text ← takeMark? 58 text
  let (_, text) ← takeNumber? 60 text
  afterFraction? text

/-- What follows a distance from universal time: a letter `Z` for none, or a sign with hours and minutes. -/
def afterOffset? : Bytes → Option Bytes
  | [] => none
  | sign :: text =>
    if sign = 90 || sign = 122 then some text
    else if sign = 43 || sign = 45 then do
      let (_, text) ← takeNumber? 23 text
      let text ← takeMark? 58 text
      let (_, text) ← takeNumber? 59 text
      some text
    else none

/-- May the byte stand between a date and a time of day? -/
def isDivider (b : UInt8) : Bool := b == 84 || b == 116 || b == 32

/-- The kind of moment that a text gives, if it gives one. -/
def ofText? (text : Bytes) : Option Moment :=
  match afterDate? text with
  | none => if afterTime? text = some [] then some time else none
  | some [] => some date
  | some (divider :: rest) =>
    if isDivider divider then
      match afterTime? rest with
      | none => none
      | some [] => some dateTime
      | some offset => if afterOffset? offset = some [] then some instant else none
    else none

end Moment

end HackPlatform.Toml
