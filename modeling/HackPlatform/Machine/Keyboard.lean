import HackPlatform.Machine.Instruction
import HackPlatform.Text.Utf8

/-!
# Keyboard

The keyboard register holds the code of the key that is pressed. Printable ASCII characters are their own codes; a few other
keys have codes from 128 on. A bound keyboard is asked each time a program reads the register.

A key reader sits between a stream of characters and the keyboard register. It records the last key read; a poll takes
the recorded key away, so each key press is seen at most once.
-/

namespace HackPlatform

namespace Key

def newLine : Word := 128

def backspace : Word := 129

def esc : Word := 140

/-- The key code of a character, or zero if it has none. -/
def code (c : Int) : Word :=
  if c = 13 || c = 10 then newLine
  else if c = 8 || c = 127 then backspace
  else if c = 27 then esc
  else if 32 ≤ c && c < 127 then Word.ofInt c
  else 0

end Key

/-- The answer of a bound keyboard. -/
inductive KeyReply where
  /-- The code of the key that is pressed, or zero. -/
  | key (code : Word)
  /-- The keyboard failed. -/
  | failure (message : Bytes)
  /-- The keyboard broke down in a way that no one expects. -/
  | breakdown (message : Bytes)

/-- A bound keyboard: the answer to each poll, and how many polls there have been. -/
structure Keyboard where
  reply : Nat → KeyReply
  polls : Nat := 0

namespace Keyboard

/-- The keyboard that gives the listed answers, and then reports that no key is pressed. -/
def ofArray (replies : Array KeyReply) : Keyboard := { reply := fun n => (replies[n]?).getD (.key 0) }

/-- The answer to the next poll. -/
def next (k : Keyboard) : KeyReply := k.reply k.polls

def advance (k : Keyboard) : Keyboard := { k with polls := k.polls + 1 }

end Keyboard

/-- A key reader: the key that has been read and not been polled, or zero, and whether the input has ended. -/
structure KeyReader where
  pending : Word := 0
  ended : Bool := false
deriving DecidableEq

namespace KeyReader

/-- Takes one character of the input. A character without a key code changes nothing. -/
def take (r : KeyReader) (c : Int) : KeyReader :=
  if Key.code c = 0 then r else { r with pending := Key.code c }

/-- Notes the end of the input. -/
def finish (r : KeyReader) : KeyReader := { r with ended := true }

/-- Gives the pending key, which is then released. -/
def poll (r : KeyReader) : Word × KeyReader := (r.pending, { r with pending := 0 })

def takeAll (r : KeyReader) (runes : List Rune) : KeyReader := runes.foldl (fun r c => r.take c.code) r

end KeyReader

end HackPlatform
