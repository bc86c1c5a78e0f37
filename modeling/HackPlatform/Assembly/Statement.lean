import HackPlatform.Assembly.Mnemonic
import HackPlatform.Text.Name
import HackPlatform.Text.Position

/-!
# Assembly statements

A line of assembly declares a label, loads a number or the value of a symbol into A, or computes. This module holds the
statements with their written form, and reads them back from lines that have no white space. Some symbols have fixed
values: the segment pointers and the registers `R0` to `R15` at the start of memory, the screen and the keyboard register.
-/

namespace HackPlatform.Assembly

/-- The predefined symbols with their values. -/
def predefined : List (Bytes × Nat) :=
  [("SP", 0), ("LCL", 1), ("ARG", 2), ("THIS", 3), ("THAT", 4), ("SCREEN", 16384), ("KBD", 24576),
    ("R0", 0), ("R1", 1), ("R2", 2), ("R3", 3), ("R4", 4), ("R5", 5), ("R6", 6), ("R7", 7),
    ("R8", 8), ("R9", 9), ("R10", 10), ("R11", 11), ("R12", 12), ("R13", 13), ("R14", 14), ("R15", 15)].map
    fun (name, value) => (ascii name, value)

def predefined? (name : Bytes) : Option Nat := predefined.lookup name

/-- What a load statement loads. -/
inductive Operand where
  /-- A number. It is written as it is; only numbers from 0 to 32767 can be read back. -/
  | number (n : Int)
  /-- The value of a symbol. -/
  | symbol (name : Bytes)
deriving DecidableEq

inductive Statement where
  /-- Names the address of the next instruction. -/
  | label (name : Bytes)
  /-- Loads a value into A. -/
  | load (operand : Operand)
  /-- Computes, stores the result, and jumps. -/
  | compute (dest : Dest) (comp : Comp) (jump : Jump)
deriving DecidableEq

/-- What can be wrong with a line, or with the program that it is part of. -/
inductive Cause where
  | missingArgument
  | invalidArgument (text : Bytes)
  | invalidSymbol (text : Bytes)
  | invalidLabel (text : Bytes)
  | predefinedLabel (name : Bytes)
  | redefinedLabel (name : Bytes) (previous : Position)
  | unterminatedLabel (text : Bytes)
  | invalidDestination (text : Bytes)
  | invalidJump (text : Bytes)
  | invalidComputation (text : Bytes)
  | tooLarge (instructions : Nat)
deriving DecidableEq

def Cause.message : Cause → Bytes
  | missingArgument => ascii "missing A-instruction argument"
  | invalidArgument text => ascii "invalid A-instruction argument: " ++ text
  | invalidSymbol text => ascii "invalid symbol: " ++ text
  | invalidLabel text => ascii "invalid label name: " ++ text
  | predefinedLabel name => ascii "label redefinition: " ++ name ++ ascii " is a predefined symbol"
  | redefinedLabel name previous =>
    ascii "label redefinition: " ++ name ++ ascii ", previous definition here: " ++ previous.text
  | unterminatedLabel text => ascii "unterminated label definition: " ++ text
  | invalidDestination text => ascii "invalid destination: " ++ text
  | invalidJump text => ascii "invalid jump: " ++ text
  | invalidComputation text => ascii "invalid computation: " ++ text
  | tooLarge n => ascii "program too large: " ++ Numeral.ofNat n ++ ascii " instructions"

/-- The largest number that a load instruction can hold. -/
def maxNumber : Nat := 32767

namespace Statement

def computeText (dest : Dest) (comp : Comp) (jump : Jump) : Bytes :=
  (if dest.isNone then [] else dest.name ++ [61]) ++ comp.name ++ (if jump = .never then [] else 59 :: jump.name)

def text : Statement → Bytes
  | label name => 40 :: name ++ [41]
  | load (.number n) => 64 :: Numeral.ofInt n
  | load (.symbol name) => 64 :: name
  | compute dest comp jump => computeText dest comp jump

/-- Reads what stands between the parentheses of a label. -/
def readLabel (name : Bytes) : Except Cause Statement :=
  if !isSymbol name then .error (.invalidLabel name)
  else if (predefined? name).isSome then .error (.predefinedLabel name)
  else .ok (.label name)

/-- Reads what stands behind `@`. -/
def readLoad (argument : Bytes) : Except Cause Statement :=
  match argument with
  | [] => .error .missingArgument
  | b :: _ =>
    if Bytes.isDigit b then
      match Numeral.readNat? argument with
      | some n => if n ≤ maxNumber then .ok (.load (.number n)) else .error (.invalidArgument argument)
      | none => .error (.invalidArgument argument)
    else if (predefined? argument).isSome || isSymbol argument then .ok (.load (.symbol argument))
    else .error (.invalidSymbol argument)

/-- Reads the part of a compute statement behind its destination. -/
def readOperation (dest : Dest) (text : Bytes) : Except Cause Statement :=
  match Bytes.splitAtFirst? 59 text with
  | none =>
    match Comp.ofName? text with
    | some comp => .ok (.compute dest comp .never)
    | none => .error (.invalidComputation text)
  | some (operation, condition) =>
    -- of a line that is wrong in both parts, the jump is reported
    match Jump.ofName? condition with
    | none => .error (.invalidJump condition)
    | some jump =>
      match Comp.ofName? operation with
      | some comp => .ok (.compute dest comp jump)
      | none => .error (.invalidComputation operation)

def readCompute (text : Bytes) : Except Cause Statement :=
  match Bytes.splitAtFirst? 61 text with
  | none => readOperation {} text
  | some (target, operation) =>
    match Dest.ofName? target with
    | none => .error (.invalidDestination target)
    | some dest => readOperation dest operation

/-- Reads a line that has no white space and is not empty. -/
def read (text : Bytes) : Except Cause Statement :=
  match text with
  | 40 :: rest =>
    if text.getLast? = some 41 then readLabel rest.dropLast else .error (.unterminatedLabel text)
  | 64 :: rest => readLoad rest
  | _ => readCompute text

end Statement

end HackPlatform.Assembly
