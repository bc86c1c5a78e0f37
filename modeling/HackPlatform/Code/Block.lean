import HackPlatform.Assembly.Statement

/-!
# Blocks of assembly

Each command of the stack machine becomes a block of assembly. The stack lives in memory: the word at `SP` is the address of
the first free cell above it. A comparison cannot subtract its operands right away, since the difference of words of unlike sign
may overflow; it looks at the signs first. A pop keeps the value in `R13` and the target address in `R14`, since the address of an
entry of an indirect segment takes both registers to compute.
-/

namespace HackPlatform.Code

open Assembly (Statement Operand Dest Comp Jump)

abbrev Block := List Statement

namespace Block

/-- The text of a block: one statement a line. -/
def text (block : Block) : Bytes := block.flatMap fun s => s.text ++ [10]

def symbol (name : Bytes) : Statement := .load (.symbol name)

/-- Loads the value of a predefined symbol. -/
def register (name : String) : Statement := symbol (ascii name)

def number (n : Int) : Statement := .load (.number n)

def setA (comp : Comp) : Statement := .compute { a := true } comp .never

def setD (comp : Comp) : Statement := .compute { d := true } comp .never

def setM (comp : Comp) : Statement := .compute { m := true } comp .never

def setAM (comp : Comp) : Statement := .compute { a := true, m := true } comp .never

/-- Jumps if a computation satisfies a condition. -/
def jumpIf (comp : Comp) (jump : Jump) : Statement := .compute {} comp jump

def jumpAlways : Statement := jumpIf .zero .always

def pushD : Block := [register "SP", setA .m, setM .d, register "SP", setM .incM]

/-- Replaces the two values on top of the stack by one. -/
def binary (comp : Comp) : Block :=
  [register "SP", setA .decM, setD .m, setA .decA, setM comp, register "SP", setM .decM]

/-- Replaces the value on top of the stack. -/
def unary (comp : Comp) : Block := [register "SP", setA .decM, setM comp]

end Block

/-- A comparison of the two values on top of the stack. -/
structure Comparison where
  /-- The word that its labels start with. -/
  word : String
  /-- The condition on the difference of operands of like sign. -/
  jump : Jump
  /-- The result if only the lower operand is negative. -/
  lowerNegative : Bool
  /-- The result if only the upper operand is negative. -/
  upperNegative : Bool

namespace Comparison

/-- Are the operands equal? -/
def eq : Comparison := ⟨"EQ", .eq, false, false⟩

/-- Is the lower operand less than the upper one? -/
def lt : Comparison := ⟨"LT", .lt, true, false⟩

/-- Is the lower operand greater than the upper one? -/
def gt : Comparison := ⟨"GT", .gt, false, true⟩

/-- A label of the comparison with number `n`. It starts with `$`, which no label of the program does. -/
def label (c : Comparison) (role : String) (n : Nat) : Bytes :=
  [36] ++ ascii c.word ++ ascii role ++ [95] ++ Numeral.ofNat n

open Block in
/-- The block of the comparison with number `n`. -/
def block (c : Comparison) (n : Nat) : Block :=
  let nonNegative := c.label "_X_NONNEG" n
  let same := c.label "_SAME_SIGN" n
  let no := c.label "_FALSE" n
  let yes := c.label "_TRUE" n
  let done := c.label "_END" n
  [ -- the sign of the lower operand
    register "SP", setA .decM, setA .decA, setD .m,
    symbol nonNegative, jumpIf .d .ge,
    -- it is negative: the sign of the upper operand
    register "SP", setA .decM, setD .m,
    symbol same, jumpIf .d .lt,
    symbol (if c.lowerNegative then yes else no), jumpAlways,
    .label nonNegative,
    -- it is not negative: the sign of the upper operand
    register "SP", setA .decM, setD .m,
    symbol same, jumpIf .d .ge,
    symbol (if c.upperNegative then yes else no), jumpAlways,
    .label same,
    -- like signs: the difference
    register "SP", setA .decM, setD .m, setA .decA, setD .mMinusD,
    symbol yes, jumpIf .d c.jump,
    .label no,
    register "SP", setA .decM, setA .decA, setM .zero,
    symbol done, jumpAlways,
    .label yes,
    register "SP", setA .decM, setA .decA, setM .minusOne,
    .label done,
    register "SP", setM .decM ]

end Comparison

namespace Block

/-- Where the entries of a segment are. -/
inductive Place where
  /-- Nowhere: an entry is its own index. -/
  | immediate
  /-- From a fixed address on. -/
  | direct (base : Int64)
  /-- From the address on that a register holds. -/
  | indirect (register : String)
  /-- In variables that are named after the file. -/
  | named (file : Bytes)
deriving DecidableEq

/-- Loads the address of an entry into A. May use D. An immediate entry has no address. -/
def address (place : Place) (index : Int64) : Block :=
  match place with
  | .immediate => []
  | .direct base => [number (base + index).toInt]
  | .indirect name => [number index.toInt, setD .a, register name, setA .dPlusM]
  | .named file => [symbol (file ++ [46] ++ Numeral.ofInt index.toInt)]

def push (place : Place) (index : Int64) : Block :=
  (match place with
    | .immediate => [number index.toInt, setD .a]
    | _ => address place index ++ [setD .m]) ++ pushD

def pop (place : Place) (index : Int64) : Block :=
  [register "SP", setA .decM, setD .m, register "R13", setM .d, register "SP", setM .decM] ++
    address place index ++
    [setD .a, register "R14", setM .d, register "R13", setD .m, register "R14", setA .m, setM .d]

def goto (label : Bytes) : Block := [symbol label, jumpAlways]

/-- Pops, and jumps to a label unless the value is zero. -/
def ifGoto (label : Bytes) : Block := [register "SP", setAM .decM, setD .m, symbol label, jumpIf .d .ne]

/-- The entry of a function, which sets its local variables to zero. -/
def function (name : Bytes) (locals : Nat) : Block :=
  .label name ::
    (if locals = 0 then []
    -- A walks over the cells and ends up behind the last one, where the stack goes on
    else [register "SP", setA .m] ++ (List.replicate locals [setM .zero, setA .incA]).flatten ++
      [setD .a, register "SP", setM .d])

/-- Calls a function. The frame holds the return address and the four segment pointers of the caller. -/
def call (name returnLabel : Bytes) (arguments : Int64) : Block :=
  [symbol returnLabel, setD .a] ++ pushD ++
    ["LCL", "ARG", "THIS", "THAT"].flatMap (fun r => [register r, setD .m] ++ pushD) ++
    [ -- the arguments lie below the five words of the frame, the local variables will follow it
      register "SP", setD .m, number (arguments + 5).toInt, setD .dMinusA, register "ARG", setM .d,
      register "SP", setD .m, register "LCL", setM .d,
      symbol name, jumpAlways,
      .label returnLabel]

/-- Returns from a function. `R13` walks down the frame, and `R14` keeps the return address, which the result may
overwrite. -/
def leave : Block :=
  [ -- where the frame ends, and the return address at its start
    register "LCL", setD .m, register "R13", setM .d,
    number 5, setA .dMinusA, setD .m, register "R14", setM .d,
    -- the result, and the stack pointer right behind it
    register "SP", setAM .decM, setD .m, register "ARG", setA .m, setM .d,
    register "ARG", setD .incM, register "SP", setM .d] ++
    ["THAT", "THIS", "ARG", "LCL"].flatMap
      (fun r => [register "R13", setAM .decM, setD .m, register r, setM .d]) ++
    [register "R14", setA .m, jumpAlways]

/-- Sets the stack pointer to the start of the stack. -/
def resetStack : Block := [number 256, setD .a, register "SP", setM .d]

end Block

end HackPlatform.Code
