import HackPlatform.Code.Block
import HackPlatform.Stack.Command
import HackPlatform.Text.Name
import HackPlatform.Text.Quoted

/-!
# Scopes

What the block of a command depends on besides the command: the file, which names static variables and the labels outside of
functions; the last function declared, which names the labels inside of it; and counters, which number comparisons and calls.

Generated symbols differ from each other by the number and place of `$`, which names of the program cannot hold:

* `function` is the entry of a function,
* `function$label` a label inside of it,
* `caller$ret$n` a return address,
* `$file$label` a label outside of functions,
* `$EQ_END_n` and the like are labels of comparisons.
-/

namespace HackPlatform.Code

open Stack (Op Segment Kind Command)

/-- Why a command has no block. -/
inductive Refusal where
  | unknownOp (op : Op)
  | unknownSegment (segment : Segment)
  | negativeIndex (segment : Segment) (index : Int64)
  | indexOutOfRange (segment : Segment) (index : Int64)
  /-- A name of the file is needed, and none has been set. -/
  | noFileName
  | popTo (segment : Segment)
  | notPushOrPop (kind : Kind)
  | invalidLabel (name : Bytes)
  | invalidFunction (name : Bytes)
  | negativeLocals (name : Bytes) (count : Int64)
  | negativeArguments (name : Bytes) (count : Int64)
  | unknownKind (kind : Kind)
deriving DecidableEq

def Refusal.message : Refusal → Bytes
  | unknownOp op => ascii "unknown arithmetic operation " ++ op.name
  | unknownSegment segment => ascii "unknown segment " ++ segment.name
  | negativeIndex segment index => segment.name ++ ascii ": negative index " ++ Numeral.ofInt index.toInt
  | indexOutOfRange segment index =>
    segment.name ++ ascii ": index " ++ Numeral.ofInt index.toInt ++ ascii " out of range"
  | noFileName => ascii "static access with no file name set"
  | popTo segment => ascii "cannot pop to " ++ segment.name
  | notPushOrPop kind => kind.name ++ ascii " is not a push or pop command"
  | invalidLabel name => ascii "invalid label " ++ Quoted.text name
  | invalidFunction name => ascii "invalid function name " ++ Quoted.text name
  | negativeLocals name count =>
    ascii "function " ++ name ++ ascii ": negative local count " ++ Numeral.ofInt count.toInt
  | negativeArguments name count =>
    ascii "call " ++ name ++ ascii ": negative argument count " ++ Numeral.ofInt count.toInt
  | unknownKind kind => ascii "unknown command kind " ++ kind.name

/-- What blocks depend on besides their commands. -/
structure Scope where
  /-- The name of the file, empty if none has been set. -/
  file : Bytes := []
  /-- The number of equality tests so far. -/
  eqCount : Nat := 0
  /-- The number of less-than tests so far. -/
  ltCount : Nat := 0
  /-- The number of greater-than tests so far. -/
  gtCount : Nat := 0
  /-- The last function declared. -/
  function : Option Bytes := none
  /-- The number of calls so far. -/
  calls : Nat := 0
deriving DecidableEq

namespace Scope

/-- The first index past the constants. -/
def constantLimit : Int64 := 32768

/-- Where a segment is. -/
def place? (s : Scope) : Segment → Option Block.Place
  | .constant => some .immediate
  | .local => some (.indirect "LCL")
  | .argument => some (.indirect "ARG")
  | .this => some (.indirect "THIS")
  | .that => some (.indirect "THAT")
  | .temp => some (.direct 5)
  | .pointer => some (.direct 3)
  | .static => some (.named s.file)
  | .unknown _ => none

/-- Where a segment is, if it has an entry with the index. -/
def resolve (s : Scope) (segment : Segment) (index : Int64) : Except Refusal Block.Place :=
  match s.place? segment with
  | none => .error (.unknownSegment segment)
  | some place =>
    -- a bad index is reported before a missing file name
    if index < 0 then .error (.negativeIndex segment index)
    else if place = .immediate ∧ constantLimit ≤ index then .error (.indexOutOfRange segment index)
    else if segment = .static ∧ s.file.isEmpty then .error .noFileName
    else .ok place

/-- The symbol of a label of the program. -/
def label (s : Scope) (name : Bytes) : Except Refusal Bytes :=
  if !isIdentifier name then .error (.invalidLabel name)
  else match s.function with
    -- a function stays the current one when the file changes
    | some function => .ok (function ++ [36] ++ name)
    | none => if s.file.isEmpty then .error .noFileName else .ok ([36] ++ s.file ++ [36] ++ name)

/-- The symbol of the return address of the next call of a function. -/
def returnLabel (s : Scope) (callee : Bytes) : Bytes :=
  s.function.getD callee ++ ascii "$ret$" ++ Numeral.ofNat s.calls

/-- The block of an operation, and the scope after it. -/
def arithmetic (s : Scope) (op : Op) : Except Refusal (Block × Scope) :=
  match op with
  | .eq => .ok (Comparison.eq.block s.eqCount, { s with eqCount := s.eqCount + 1 })
  | .lt => .ok (Comparison.lt.block s.ltCount, { s with ltCount := s.ltCount + 1 })
  | .gt => .ok (Comparison.gt.block s.gtCount, { s with gtCount := s.gtCount + 1 })
  | .add => .ok (Block.binary .dPlusM, s)
  | .sub => .ok (Block.binary .mMinusD, s)
  | .and => .ok (Block.binary .dAndM, s)
  | .or => .ok (Block.binary .dOrM, s)
  | .neg => .ok (Block.unary .negM, s)
  | .not => .ok (Block.unary .notM, s)
  | .unknown _ => .error (.unknownOp op)

def push (s : Scope) (segment : Segment) (index : Int64) : Except Refusal (Block × Scope) :=
  match s.resolve segment index with
  | .error r => .error r
  | .ok place => .ok (Block.push place index, s)

def pop (s : Scope) (segment : Segment) (index : Int64) : Except Refusal (Block × Scope) :=
  match s.resolve segment index with
  | .error r => .error r
  | .ok .immediate => .error (.popTo segment)
  | .ok place => .ok (Block.pop place index, s)

/-- A block that a label goes into. -/
def branch (s : Scope) (name : Bytes) (block : Bytes → Block) : Except Refusal (Block × Scope) :=
  match s.label name with
  | .error r => .error r
  | .ok symbol => .ok (block symbol, s)

def declare (s : Scope) (name : Bytes) (locals : Int64) : Except Refusal (Block × Scope) :=
  if !isIdentifier name then .error (.invalidFunction name)
  else if locals < 0 then .error (.negativeLocals name locals)
  else .ok (Block.function name locals.toInt.toNat, { s with function := some name })

def call (s : Scope) (name : Bytes) (arguments : Int64) : Except Refusal (Block × Scope) :=
  if !isIdentifier name then .error (.invalidFunction name)
  else if arguments < 0 then .error (.negativeArguments name arguments)
  else .ok (Block.call name (s.returnLabel name) arguments, { s with calls := s.calls + 1 })

/-- The block of a command, and the scope after it. -/
def lower (s : Scope) : Command → Except Refusal (Block × Scope)
  | .arithmetic op => s.arithmetic op
  | .push segment index => s.push segment index
  | .pop segment index => s.pop segment index
  | .label name => s.branch name fun symbol => [.label symbol]
  | .goto name => s.branch name Block.goto
  | .ifGoto name => s.branch name Block.ifGoto
  | .function name locals => s.declare name locals
  | .call name arguments => s.call name arguments
  | .return => .ok (Block.leave, s)
  | .unknown code => .error (.unknownKind (.unknown code))

end Scope

end HackPlatform.Code
