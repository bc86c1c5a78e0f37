import Std.Data.HashMap
import HackPlatform.Assembly.Statement
import HackPlatform.Machine.Image
import HackPlatform.Text.Line
import HackPlatform.Text.Blank

/-!
# Assembly programs

A program is assembled in one pass. An instruction that loads a symbol is a zero at first, and the symbol keeps the address of the
instruction in its entry, whether the label of the symbol was declared before or will be declared later. What is wrong is collected,
up to ten lines. At the end the symbols get their values in the order in which they were met: that of the label, or, for a
symbol without a label, the next address from 16 on, which is that of a variable. The value is patched into the instructions of
the entry.
-/

namespace HackPlatform.Assembly

/-- The address of a symbol whose label has not been declared. -/
def unplaced : Int := -1

/-- The entry of a symbol that is not predefined. -/
structure Symbol where
  /-- Where its label was declared; until then, where it was met first. -/
  pos : Position
  /-- The address of its label. -/
  address : Int := unplaced
  /-- The addresses of the instructions that load it. -/
  uses : Array Nat := #[]

/-- What is known about a program while it is read. -/
structure Draft where
  /-- The instructions so far, with zeros for the values of symbols. -/
  rom : Array Instruction := #[]
  /-- The symbols so far. -/
  symbols : Std.HashMap Bytes Symbol := ∅
  /-- The symbols in the order in which they were met. -/
  order : Array Bytes := #[]
  /-- What is wrong, the last entry first. -/
  errors : List (Located Cause) := []
  /-- The place of the last line read. -/
  pos : Position

/-- Why a program is refused. -/
inductive Error where
  /-- Its source could not be read to the end. -/
  | unreadable (name : Bytes) (fault : ReadFault)
  /-- Something is wrong with it. -/
  | rejected (entries : List (Located Cause))
deriving DecidableEq

def Error.message : Error → Bytes
  | unreadable name fault => name ++ ascii ": read failed: " ++ fault.message
  | rejected entries => Located.messages Cause.message entries

/-- The most lines that are reported. -/
def maxErrors : Nat := 10

/-- The address of the first variable. -/
def variableBase : Nat := 16

namespace Draft

/-- Reports what is wrong with the current line. -/
def fail (d : Draft) (cause : Cause) : Draft := { d with errors := ⟨d.pos, cause⟩ :: d.errors }

def push (d : Draft) (i : Instruction) : Draft := { d with rom := d.rom.push i }

/-- The entry of a symbol. A symbol that was not met before gets one. -/
def lookup (d : Draft) (name : Bytes) : Symbol × Draft :=
  match d.symbols[name]? with
  | some symbol => (symbol, d)
  | none =>
    let symbol : Symbol := { pos := d.pos }
    (symbol, { d with symbols := d.symbols.insert name symbol, order := d.order.push name })

/-- Replaces the entry of a symbol. -/
def put (d : Draft) (name : Bytes) (symbol : Symbol) : Draft := { d with symbols := d.symbols.insert name symbol }

/-- Declares the label of the next instruction. -/
def declare (d : Draft) (name : Bytes) : Draft :=
  let (symbol, d) := d.lookup name
  -- the first declaration stays the one that counts
  if symbol.address ≠ unplaced then d.fail (.redefinedLabel name symbol.pos)
  else d.put name { symbol with address := d.rom.size, pos := d.pos }

/-- Adds an instruction that loads a symbol. -/
def use (d : Draft) (name : Bytes) : Draft :=
  let (symbol, d) := d.lookup name
  (d.put name { symbol with uses := symbol.uses.push d.rom.size }).push 0

def add (d : Draft) : Statement → Draft
  | .label name => d.declare name
  | .load (.number n) => d.push (Word.ofInt n)
  | .load (.symbol name) =>
    match predefined? name with
    | some value => d.push value.toUInt16
    | none => d.use name
  | .compute dest comp jump => d.push (Instruction.compute comp.bits dest.bits jump.bits)

/-- Moves to the next line. -/
def enterLine (d : Draft) (column : Nat) : Draft :=
  { d with pos := { d.pos with line := d.pos.line + 1, column } }

/-- Moves past a line of the given length. -/
def leaveLine (d : Draft) (length : Nat) : Draft :=
  { d with pos := { d.pos with offset := d.pos.offset + length + 1 } }

def readLine (d : Draft) (line : Bytes) : Draft :=
  let code := Bytes.beforeComment line
  let d := match Bytes.firstVisible? code with
    | none => d.enterLine 1
    | some column =>
      let d := d.enterLine column
      match Statement.read (Bytes.squeeze code) with
      | .ok statement => d.add statement
      | .error cause => d.fail cause
  d.leaveLine line.length

/-- Have enough lines been reported? -/
def isFull (d : Draft) : Bool := maxErrors ≤ d.errors.length

/-- The entries of a finished draft, in order. A program with too many instructions is reported at the last line. -/
def entries (d : Draft) : List (Located Cause) :=
  let d := if Image.maxInstructions < d.rom.size then d.fail (.tooLarge d.rom.size) else d
  d.errors.reverse

end Draft

/-- Writes the value of a symbol into the instructions that load it. -/
def Symbol.patch (symbol : Symbol) (rom : Array Instruction) (value : Int) : Array Instruction :=
  symbol.uses.foldl (fun rom use => rom.setIfInBounds use (Word.ofInt value)) rom

/-- The instructions after the values of some symbols were written, and the address of the next variable. -/
structure Patched where
  next : Nat := variableBase
  rom : Array Instruction

/-- Writes the value of a symbol. One that has no label becomes a variable. -/
def Patched.resolve (symbols : Std.HashMap Bytes Symbol) (p : Patched) (name : Bytes) : Patched :=
  match symbols[name]? with
  | none => p
  | some symbol =>
    if symbol.address = unplaced then
      if symbol.uses.isEmpty then p else { next := p.next + 1, rom := symbol.patch p.rom p.next }
    else { p with rom := symbol.patch p.rom symbol.address }

/-- The words of a finished draft. -/
def Draft.words (d : Draft) : Array Instruction :=
  (d.order.foldl (Patched.resolve d.symbols) { rom := d.rom }).rom

/-- Assembles a program. The name of its source appears in positions. -/
def assemble (name : Bytes) (source : Source) : Except Error (Array Instruction) :=
  match source.feed Draft.isFull Draft.readLine { pos := { file := name } } with
  | (_, some fault) => .error (.unreadable name fault)
  | (d, none) =>
    match d.entries with
    | [] => .ok d.words
    | entries => .error (.rejected entries)

end HackPlatform.Assembly
