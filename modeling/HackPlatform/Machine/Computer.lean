import HackPlatform.Machine.Instruction
import HackPlatform.Machine.Memory
import HackPlatform.Machine.Keyboard
import HackPlatform.Text.Numeral

/-!
# The computer

The state of the computer: program counter, registers A and D, instruction memory, data memory, and a keyboard if one is
bound. The screen is a part of data memory, and the keyboard register a cell of it.
-/

namespace HackPlatform

structure Computer where
  /-- The program counter; it may point anywhere. -/
  pc : Int := 0
  a : Word := 0
  d : Word := 0
  rom : Array Instruction := #[]
  ram : Memory := Memory.blank Memory.maxSize
  /-- The number of instructions that the last run has executed. -/
  cycles : Nat := 0
  /-- Has the program reached a halt loop? -/
  halted : Bool := false
  keyboard : Option Keyboard := none

namespace Computer

/-- The address of the first word of the screen. -/
def screenBase : Nat := 16384

/-- The address of the keyboard register. -/
def keyboardAddress : Nat := 24576

/-- The address of the first word of the stack. -/
def stackBase : Nat := 256

/-- A change to the configuration of a computer. -/
inductive Setting where
  /-- The number of words of data memory. -/
  | memorySize (words : Int)
  /-- A word to be stored at an address. -/
  | preset (addr : Int) (w : Word)
  /-- A keyboard to be bound. -/
  | keyboard (k : Keyboard)

/-- Why a setting was refused. -/
inductive SettingError where
  | invalidSize (words : Int)
  | presetOutOfRange (addr : Int)
deriving DecidableEq

def SettingError.message : SettingError → Bytes
  | invalidSize n => ascii "invalid RAM size " ++ Numeral.ofInt n
  | presetOutOfRange addr => ascii "preset: address " ++ Numeral.ofInt addr ++ ascii " out of range"

def configure (c : Computer) : Setting → Except SettingError Computer
  | .memorySize n =>
    if n ≤ 0 || Memory.maxSize < n then .error (.invalidSize n)
    else .ok { c with ram := c.ram.resize n.toNat }
  | .preset addr w =>
    if addr < 0 || c.ram.size ≤ addr then .error (.presetOutOfRange addr)
    else .ok { c with ram := c.ram.write addr.toNat w }
  | .keyboard k => .ok { c with keyboard := some k }

/-- Applies settings in order up to the first that is refused. -/
def configureAll (c : Computer) : List Setting → Computer × Option SettingError
  | [] => (c, none)
  | s :: rest =>
    match c.configure s with
    | .ok next => next.configureAll rest
    | .error e => (c, some e)

/-- A computer with a program and settings. -/
def new (rom : Array Instruction) (settings : List Setting) : Except SettingError Computer :=
  match ({ rom } : Computer).configureAll settings with
  | (c, none) => .ok c
  | (_, some e) => .error e

/-- The words of the stack: from the stack base up to where the word at address zero points. There is no stack if
that word does not point above the base, or points past the end of memory. -/
def stack? (c : Computer) : Option (List Word) :=
  let sp := (c.ram.read 0).signed
  if sp ≤ stackBase || c.ram.size < sp then none
  else some (c.ram.slice stackBase sp.toNat)

end Computer

end HackPlatform
