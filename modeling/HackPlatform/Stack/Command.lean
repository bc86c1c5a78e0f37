import HackPlatform.Text.Position

/-!
# Commands of the stack machine

A stack program is a list of commands: arithmetic on the top of the stack, moves between the stack and memory segments,
branching, and functions. Kinds, operations and segments are numbered; a number that none of them has is kept, so that it
can be named in a message.
-/

namespace HackPlatform.Stack

inductive Kind where
  | arithmetic | push | pop | label | goto | ifGoto | function | call | return
  | unknown (code : Int)
deriving DecidableEq

namespace Kind

/-- The kind with a number. -/
def ofCode : Int → Kind
  | 0 => arithmetic
  | 1 => push
  | 2 => pop
  | 3 => label
  | 4 => goto
  | 5 => ifGoto
  | 6 => function
  | 7 => call
  | 8 => .return
  | n => unknown n

def name : Kind → Bytes
  | arithmetic => ascii "arithmetic"
  | push => ascii "push"
  | pop => ascii "pop"
  | label => ascii "label"
  | goto => ascii "goto"
  | ifGoto => ascii "if-goto"
  | function => ascii "function"
  | call => ascii "call"
  | .return => ascii "return"
  | unknown code => ascii "kind(" ++ Numeral.ofInt code ++ ascii ")"

/-- The kinds that a keyword names. -/
def keywords : List Kind := [push, pop, label, goto, ifGoto, function, call, .return]

/-- The kind that a keyword names. -/
def ofName? (text : Bytes) : Option Kind := keywords.find? fun k => k.name == text

/-- The number of fields of a command of this kind, its keyword included. -/
def arity : Kind → Nat
  | push | pop | function | call => 3
  | label | goto | ifGoto => 2
  | _ => 1

end Kind

/-- An arithmetic or logical operation. -/
inductive Op where
  | add | sub | neg | eq | gt | lt | and | or | not
  | unknown (code : Int)
deriving DecidableEq

namespace Op

/-- The operations that have a name. -/
def all : List Op := [add, sub, neg, eq, gt, lt, and, or, not]

/-- The operation with a number. -/
def ofCode : Int → Op
  | 0 => add
  | 1 => sub
  | 2 => neg
  | 3 => eq
  | 4 => gt
  | 5 => lt
  | 6 => and
  | 7 => or
  | 8 => not
  | n => unknown n

def code : Op → Int
  | add => 0
  | sub => 1
  | neg => 2
  | eq => 3
  | gt => 4
  | lt => 5
  | and => 6
  | or => 7
  | not => 8
  | unknown n => n

def name : Op → Bytes
  | add => ascii "add"
  | sub => ascii "sub"
  | neg => ascii "neg"
  | eq => ascii "eq"
  | gt => ascii "gt"
  | lt => ascii "lt"
  | and => ascii "and"
  | or => ascii "or"
  | not => ascii "not"
  | unknown code => ascii "op(" ++ Numeral.ofInt code ++ ascii ")"

def ofName? (text : Bytes) : Option Op := all.find? fun o => o.name == text

/-- Does the operation take two values? -/
def isBinary : Op → Bool
  | neg | not => false
  | _ => true

end Op

inductive Segment where
  | constant | local | argument | this | that | temp | pointer | static
  | unknown (code : Int)
deriving DecidableEq

namespace Segment

/-- The segments that have a name. -/
def all : List Segment := [constant, .local, argument, this, that, temp, pointer, static]

/-- The segment with a number. -/
def ofCode : Int → Segment
  | 0 => constant
  | 1 => .local
  | 2 => argument
  | 3 => this
  | 4 => that
  | 5 => temp
  | 6 => pointer
  | 7 => static
  | n => unknown n

def code : Segment → Int
  | constant => 0
  | .local => 1
  | argument => 2
  | this => 3
  | that => 4
  | temp => 5
  | pointer => 6
  | static => 7
  | unknown n => n

def name : Segment → Bytes
  | constant => ascii "constant"
  | .local => ascii "local"
  | argument => ascii "argument"
  | this => ascii "this"
  | that => ascii "that"
  | temp => ascii "temp"
  | pointer => ascii "pointer"
  | static => ascii "static"
  | unknown code => ascii "segment(" ++ Numeral.ofInt code ++ ascii ")"

def ofName? (text : Bytes) : Option Segment := all.find? fun s => s.name == text

end Segment

/-- A command. Indices and counts are 64-bit integers. -/
inductive Command where
  /-- An operation on the top of the stack. -/
  | arithmetic (op : Op)
  /-- Pushes an entry of a segment. -/
  | push (segment : Segment) (index : Int64)
  /-- Pops into an entry of a segment. -/
  | pop (segment : Segment) (index : Int64)
  /-- Declares a label. -/
  | label (name : Bytes)
  /-- Jumps to a label. -/
  | goto (name : Bytes)
  /-- Pops, and jumps to a label unless the value is zero. -/
  | ifGoto (name : Bytes)
  /-- Declares a function and its number of local variables. -/
  | function (name : Bytes) (locals : Int64)
  /-- Calls a function with a number of arguments. -/
  | call (name : Bytes) (arguments : Int64)
  /-- Returns from a function. -/
  | return
  /-- A command of no known kind. -/
  | unknown (code : Int)
deriving DecidableEq

namespace Command

def kind : Command → Kind
  | arithmetic _ => .arithmetic
  | push _ _ => .push
  | pop _ _ => .pop
  | label _ => .label
  | goto _ => .goto
  | ifGoto _ => .ifGoto
  | function _ _ => .function
  | call _ _ => .call
  | .return => .return
  | unknown code => .unknown code

/-- The command of a kind with the given fields, of which it takes those that it has. -/
def ofFields (kind : Kind) (op : Op) (segment : Segment) (index : Int64) (name : Bytes) : Command :=
  match kind with
  | .arithmetic => arithmetic op
  | .push => push segment index
  | .pop => pop segment index
  | .label => label name
  | .goto => goto name
  | .ifGoto => ifGoto name
  | .function => function name index
  | .call => call name index
  | .return => .return
  | .unknown code => unknown code

def text (c : Command) : Bytes :=
  match c with
  | arithmetic op => op.name
  | push segment index | pop segment index =>
    c.kind.name ++ [32] ++ segment.name ++ [32] ++ Numeral.ofInt index.toInt
  | label name | goto name | ifGoto name => c.kind.name ++ [32] ++ name
  | function name index | call name index => c.kind.name ++ [32] ++ name ++ [32] ++ Numeral.ofInt index.toInt
  | .return | unknown _ => c.kind.name

end Command

end HackPlatform.Stack
