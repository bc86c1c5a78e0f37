import HackPlatform.Machine.Memory
import HackPlatform.Machine.Instruction
import HackPlatform.Stream.Guarded
import HackPlatform.Text.Blank
import HackPlatform.Text.Line
import HackPlatform.Text.Quoted
import HackPlatform.Text.Numeral

/-!
# Program images

An image is the text form of a program: one instruction a line, written as sixteen binary digits. When an image is read,
white space around an instruction and blank lines are ignored.
-/

namespace HackPlatform.Image

/-- The most instructions of a program. -/
def maxInstructions : Nat := 32768

/-- Why an image cannot be read. -/
inductive Error where
  /-- A line is not sixteen binary digits. -/
  | invalidLine (line : Nat) (text : Bytes)
  /-- A line holds one instruction too many. -/
  | tooLarge (line : Nat)
  /-- Reading failed. -/
  | unreadable (fault : ReadFault)
deriving DecidableEq

def Error.message : Error → Bytes
  | invalidLine line text =>
    ascii "line " ++ Numeral.ofNat line ++ ascii ": invalid instruction " ++ Quoted.text text
  | tooLarge line => ascii "line " ++ Numeral.ofNat line ++ ascii ": program too large"
  | unreadable fault => ascii "read failed: " ++ fault.message

/-- The line of an instruction, without its end. -/
def digits (i : Instruction) : Bytes := Numeral.binary 16 i.toNat

/-- Reads the sixteen binary digits of an instruction. -/
def readDigits? (text : Bytes) : Option Instruction :=
  if text.length = 16 && text.all (fun b => b = 48 || b = 49) then
    some (text.foldl (fun (n : Nat) (b : UInt8) => 2 * n + (b.toNat - 48)) 0).toUInt16
  else none

/-- Reads the lines of an image, the first of which has the given number, after the instructions `done`. -/
def decodeLines : Nat → Array Instruction → List Bytes → Except Error (Array Instruction)
  | _, done, [] => .ok done
  | number, done, line :: rest =>
    let text := Bytes.trim line
    if text.isEmpty then decodeLines (number + 1) done rest
    else match readDigits? text with
      | none => .error (.invalidLine number text)
      | some i =>
        -- lines behind the last instruction that fits are still read: they may be blank or invalid
        if done.size = maxInstructions then .error (.tooLarge number)
        else decodeLines (number + 1) (done.push i) rest

def decode (source : Source) : Except Error (Array Instruction) :=
  match decodeLines 1 #[] source.lines with
  | .error e => .error e
  | .ok rom =>
    match source.fault with
    | some fault => .error (.unreadable fault)
    | none => .ok rom

def lines (rom : Array Instruction) : List Bytes := rom.toList.map fun i => digits i ++ [10]

def encode {σ : Type} [Stream.Outlet σ] (outlet : σ) (rom : Array Instruction) : σ × Option Stream.Error :=
  Stream.emit outlet (lines rom)

end HackPlatform.Image
