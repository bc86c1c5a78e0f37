/-!
# Words and instructions

The machine computes on words of sixteen bits. A word is kept as a bit pattern; as an address it is unsigned, and as
a number that a program prints or compares it is signed.

An instruction is a word. Bit 15 tells the two forms apart. In a load instruction the other fifteen bits are the value
that goes into register A. A compute instruction has a comp field of seven bits, a dest field and a jump field of three
bits each; its other bits are set. The comp field controls the arithmetic unit, which zeroes and inverts its two
operands, adds them or intersects them, and inverts the result.
-/

namespace HackPlatform

abbrev Word := UInt16

namespace Word

/-- The word as a signed number. -/
def signed (w : Word) : Int := w.toInt16.toInt

/-- The word whose bits are the last sixteen bits of a number. -/
def ofInt (n : Int) : Word := UInt16.ofInt n

def isNegative (w : Word) : Bool := w &&& 0x8000 != 0

end Word

abbrev Instruction := UInt16

namespace Instruction

/-- Does the instruction load a value into A? -/
def isLoad (i : Instruction) : Bool := i &&& 0x8000 == 0

/-- The value that a load instruction loads. -/
def value (i : Instruction) : Word := i &&& 0x7FFF

/-- The comp field: bit 6 selects memory as the second operand, bits 5 to 0 control the arithmetic unit. -/
def comp (i : Instruction) : UInt16 := (i >>> 6) &&& 0x7F

/-- The dest field: bit 2 is A, bit 1 is D, bit 0 is memory. -/
def dest (i : Instruction) : UInt16 := (i >>> 3) &&& 7

/-- The jump field: bit 2 jumps on a negative result, bit 1 on zero, bit 0 on a positive one. -/
def jump (i : Instruction) : UInt16 := i &&& 7

/-- The compute instruction with the given fields; surplus bits are dropped. -/
def compute (comp dest jump : UInt16) : Instruction :=
  (0xE000 : UInt16) ||| ((comp &&& 0x7F) <<< 6) ||| ((dest &&& 7) <<< 3) ||| (jump &&& 7)

/-- Does the comp field take memory as the second operand? -/
def readsMemory (i : Instruction) : Bool := i.comp &&& 0x40 != 0

def storesMemory (i : Instruction) : Bool := i.dest &&& 1 != 0

def storesD (i : Instruction) : Bool := i.dest &&& 2 != 0

def storesA (i : Instruction) : Bool := i.dest &&& 4 != 0

/-- Does the jump field jump on this result? -/
def jumpsOn (i : Instruction) (result : Word) : Bool :=
  (i.jump &&& 4 != 0 && result.isNegative) ||
    (i.jump &&& 2 != 0 && result == 0) ||
    (i.jump &&& 1 != 0 && !result.isNegative && result != 0)

end Instruction

namespace Alu

/-- An operand after its zero bit and its invert bit. -/
def prepare (zero invert : Bool) (x : Word) : Word :=
  let x := if zero then 0 else x
  if invert then ~~~x else x

/-- The output for operands `x` and `y`. The control bits are, from bit 5 down: zero `x`, invert `x`, zero `y`, invert
`y`, add, invert the result. Other bits of `control` are ignored. -/
def output (x y : Word) (control : UInt16) : Word :=
  let x := prepare (control &&& 32 != 0) (control &&& 16 != 0) x
  let y := prepare (control &&& 8 != 0) (control &&& 4 != 0) y
  let out := if control &&& 2 != 0 then x + y else x &&& y
  if control &&& 1 != 0 then ~~~out else out

end Alu

end HackPlatform
