import HackPlatform.Stack.Command
import HackPlatform.Text.Blank
import HackPlatform.Text.Line
import HackPlatform.Text.Name

/-!
# Stack programs

A stack program is written with at most one command a line. Fields are separated by white space, and a comment runs from
`//` to the end of the line. Reading gives the commands with their places, or what is wrong with up to ten lines.
-/

namespace HackPlatform.Stack

/-- What can be wrong with a line. -/
inductive Cause where
  | unknownCommand (word : Bytes)
  | wrongArity (word : Bytes) (expected got : Nat)
  | unknownSegment (word : Bytes)
  | invalidIndex (word : Bytes)
  | popToConstant
  | constantOutOfRange (index : Int64)
  | invalidIdentifier (word : Bytes)
deriving DecidableEq

def Cause.message : Cause → Bytes
  | unknownCommand word => ascii "unknown command " ++ word
  | wrongArity word expected got =>
    word ++ ascii ": expected " ++ Numeral.ofNat expected ++ ascii " argument(s), got " ++ Numeral.ofNat got
  | unknownSegment word => ascii "unknown segment " ++ word
  | invalidIndex word => ascii "invalid index " ++ word
  | popToConstant => ascii "cannot pop to constant"
  | constantOutOfRange index => ascii "constant " ++ Numeral.ofInt index.toInt ++ ascii " out of range"
  | invalidIdentifier word => ascii "invalid identifier " ++ word

/-- Why a program is refused. -/
inductive Error where
  /-- Its source could not be read to the end. -/
  | unreadable (name : Bytes) (fault : ReadFault)
  /-- Something is wrong with it. -/
  | rejected (entries : List (Located Cause))
deriving DecidableEq

def Error.message : Error → Bytes
  | unreadable name fault => name ++ ascii ": read failed: " ++ fault.message
  | rejected entries => Located.messages Cause.message entries

/-- The most lines that are reported. -/
def maxErrors : Nat := 10

/-- The largest constant that can be pushed. -/
def maxConstant : Int64 := 32767

/-- What is wrong with a line, and the column where it shows. -/
structure Complaint where
  cause : Cause
  column : Nat
deriving DecidableEq

/-- A complaint about a field. -/
def Complaint.at {α : Type} (f : Bytes.Field) (cause : Cause) : Except Complaint α := .error ⟨cause, f.column⟩

/-- Reads an index: decimal digits of a 64-bit integer. -/
def readIndex (f : Bytes.Field) : Except Complaint Int64 :=
  match Numeral.readNat? f.text with
  | some n => if (n : Int) ≤ Numeral.maxInt64 then .ok (Int64.ofNat n) else Complaint.at f (.invalidIndex f.text)
  | none => Complaint.at f (.invalidIndex f.text)

/-- Reads the fields of a push or pop command behind its keyword. -/
def readAccess (kind : Kind) (segmentField indexField : Bytes.Field) : Except Complaint Command :=
  match Segment.ofName? segmentField.text with
  | none => Complaint.at segmentField (.unknownSegment segmentField.text)
  | some segment =>
    match readIndex indexField with
    | .error e => .error e
    | .ok index =>
      -- an index that cannot be read is reported even where nothing can be popped to
      if segment = .constant ∧ kind = .pop then Complaint.at segmentField .popToConstant
      else if segment = .constant ∧ maxConstant < index then Complaint.at indexField (.constantOutOfRange index)
      else .ok (.ofFields kind .add segment index [])

/-- Reads the name of a label or function. -/
def readName (f : Bytes.Field) : Except Complaint Bytes :=
  if isIdentifier f.text then .ok f.text else Complaint.at f (.invalidIdentifier f.text)

/-- Reads the fields behind the keyword of a command; their number is right. -/
def readArguments (kind : Kind) : List Bytes.Field → Except Complaint Command
  | [] => .ok (.ofFields kind .add .constant 0 [])
  | [nameField] =>
    match readName nameField with
    | .error e => .error e
    | .ok name => .ok (.ofFields kind .add .constant 0 name)
  | first :: second :: _ =>
    if kind = .push ∨ kind = .pop then readAccess kind first second
    else
      match readName first with
      | .error e => .error e
      | .ok name =>
        match readIndex second with
        | .error e => .error e
        | .ok index => .ok (.ofFields kind .add .constant index name)

/-- Reads a command whose keyword has been found to be of a kind. -/
def readCommand (kind : Kind) (keyword : Bytes.Field) (arguments : List Bytes.Field)
    (read : List Bytes.Field → Except Complaint Command) : Except Complaint Command :=
  if arguments.length + 1 = kind.arity then read arguments
  else Complaint.at keyword (.wrongArity keyword.text (kind.arity - 1) arguments.length)

def readFields (keyword : Bytes.Field) (arguments : List Bytes.Field) : Except Complaint Command :=
  match Op.ofName? keyword.text with
  | some op => readCommand .arithmetic keyword arguments fun _ => .ok (.arithmetic op)
  | none =>
    match Kind.ofName? keyword.text with
    | some kind => readCommand kind keyword arguments (readArguments kind)
    | none => Complaint.at keyword (.unknownCommand keyword.text)

/-- What reading knows about a program. -/
structure Draft where
  /-- The commands so far. -/
  commands : Array (Located Command) := #[]
  /-- What is wrong, the last entry first. -/
  errors : List (Located Cause) := []
  /-- The place of the start of the next line, but for its number, which is that of the last line read. -/
  pos : Position

namespace Draft

/-- The place of a column of the line with the number after the last one. -/
def place (d : Draft) (column : Nat) : Position :=
  { d.pos with line := d.pos.line + 1, column, offset := d.pos.offset + column - 1 }

/-- Moves past a line of the given length. -/
def leaveLine (d : Draft) (length : Nat) : Draft :=
  { d with pos := { d.pos with line := d.pos.line + 1, offset := d.pos.offset + length + 1 } }

def readLine (d : Draft) (line : Bytes) : Draft :=
  let d := match Bytes.fields (Bytes.beforeComment line) with
    | [] => d
    | keyword :: arguments =>
      match readFields keyword arguments with
      | .ok command => { d with commands := d.commands.push ⟨d.place keyword.column, command⟩ }
      | .error e => { d with errors := ⟨d.place e.column, e.cause⟩ :: d.errors }
  d.leaveLine line.length

/-- Have enough lines been reported? -/
def isFull (d : Draft) : Bool := maxErrors ≤ d.errors.length

end Draft

/-- Reads a program. The name of its source appears in positions. -/
def parse (name : Bytes) (source : Source) : Except Error (List (Located Command)) :=
  match source.feed Draft.isFull Draft.readLine { pos := { file := name } } with
  | (_, some fault) => .error (.unreadable name fault)
  | (d, none) => if d.errors.isEmpty then .ok d.commands.toList else .error (.rejected d.errors.reverse)

end HackPlatform.Stack
