import HackPlatform.Machine.Instruction
import HackPlatform.Text.Bytes

/-!
# Mnemonics

The three fields of a compute instruction in their written form. A computation has one canonical name; those of commuting
operands are also read with the operands swapped. A destination is a set of registers, and a jump a condition on the sign of
the result.
-/

namespace HackPlatform.Assembly

/-- A computation of D, A and M, where M is the memory word that A points to. -/
inductive Comp where
  | zero | one | minusOne
  | d | a | m
  | notD | notA | notM
  | negD | negA | negM
  | incD | incA | incM
  | decD | decA | decM
  | dPlusA | dPlusM
  | dMinusA | dMinusM
  | aMinusD | mMinusD
  | dAndA | dAndM
  | dOrA | dOrM
deriving DecidableEq

namespace Comp

def all : List Comp :=
  [zero, one, minusOne, d, a, m, notD, notA, notM, negD, negA, negM, incD, incA, incM, decD, decA, decM,
    dPlusA, dPlusM, dMinusA, dMinusM, aMinusD, mMinusD, dAndA, dAndM, dOrA, dOrM]

def bits : Comp → UInt16
  | zero => 0x2A
  | one => 0x3F
  | minusOne => 0x3A
  | d => 0x0C
  | a => 0x30
  | m => 0x70
  | notD => 0x0D
  | notA => 0x31
  | notM => 0x71
  | negD => 0x0F
  | negA => 0x33
  | negM => 0x73
  | incD => 0x1F
  | incA => 0x37
  | incM => 0x77
  | decD => 0x0E
  | decA => 0x32
  | decM => 0x72
  | dPlusA => 0x02
  | dPlusM => 0x42
  | dMinusA => 0x13
  | dMinusM => 0x53
  | aMinusD => 0x07
  | mMinusD => 0x47
  | dAndA => 0x00
  | dAndM => 0x40
  | dOrA => 0x15
  | dOrM => 0x55

/-- The canonical name. -/
def word : Comp → String
  | zero => "0"
  | one => "1"
  | minusOne => "-1"
  | d => "D"
  | a => "A"
  | m => "M"
  | notD => "!D"
  | notA => "!A"
  | notM => "!M"
  | negD => "-D"
  | negA => "-A"
  | negM => "-M"
  | incD => "D+1"
  | incA => "A+1"
  | incM => "M+1"
  | decD => "D-1"
  | decA => "A-1"
  | decM => "M-1"
  | dPlusA => "D+A"
  | dPlusM => "D+M"
  | dMinusA => "D-A"
  | dMinusM => "D-M"
  | aMinusD => "A-D"
  | mMinusD => "M-D"
  | dAndA => "D&A"
  | dAndM => "D&M"
  | dOrA => "D|A"
  | dOrM => "D|M"

/-- The name with the operands swapped, where it is read too. -/
def swapped? : Comp → Option String
  | incD => some "1+D"
  | incA => some "1+A"
  | incM => some "1+M"
  | dPlusA => some "A+D"
  | dPlusM => some "M+D"
  | dAndA => some "A&D"
  | dAndM => some "M&D"
  | dOrA => some "A|D"
  | dOrM => some "M|D"
  | _ => none

def name (c : Comp) : Bytes := ascii c.word

/-- Is the text a name of the computation? -/
def isNamed (text : Bytes) (c : Comp) : Bool := text == c.name || c.swapped?.any fun s => text == ascii s

def ofName? (text : Bytes) : Option Comp := all.find? (isNamed text)

def ofBits? (bits : UInt16) : Option Comp := all.find? fun c => c.bits == bits

end Comp

/-- The registers that a result goes to. -/
structure Dest where
  a : Bool := false
  d : Bool := false
  m : Bool := false
deriving DecidableEq

namespace Dest

def bits (t : Dest) : UInt16 := (if t.a then 4 else 0) + (if t.d then 2 else 0) + (if t.m then 1 else 0)

def ofBits (bits : UInt16) : Dest := ⟨bits &&& 4 != 0, bits &&& 2 != 0, bits &&& 1 != 0⟩

def isNone (t : Dest) : Bool := !t.a && !t.d && !t.m

def name (t : Dest) : Bytes :=
  match t.a, t.d, t.m with
  | false, false, false => []
  | false, false, true => ascii "M"
  | false, true, false => ascii "D"
  | false, true, true => ascii "MD"
  | true, false, false => ascii "A"
  | true, false, true => ascii "AM"
  | true, true, false => ascii "AD"
  | true, true, true => ascii "AMD"

/-- Adds the registers named by letters; each may be named once. -/
def addLetters? : Dest → Bytes → Option Dest
  | t, [] => some t
  | t, 65 :: rest => if t.a then none else addLetters? { t with a := true } rest
  | t, 68 :: rest => if t.d then none else addLetters? { t with d := true } rest
  | t, 77 :: rest => if t.m then none else addLetters? { t with m := true } rest
  | _, _ :: _ => none

/-- The destination with a name: distinct letters in any order, at least one. -/
def ofName? (text : Bytes) : Option Dest := if text.isEmpty then none else addLetters? {} text

end Dest

/-- A jump condition on the signed result. -/
inductive Jump where
  | never | gt | eq | ge | lt | ne | le | always
deriving DecidableEq

namespace Jump

/-- All conditions, by jump field. -/
def all : List Jump := [never, gt, eq, ge, lt, ne, le, always]

def bits : Jump → UInt16
  | never => 0
  | gt => 1
  | eq => 2
  | ge => 3
  | lt => 4
  | ne => 5
  | le => 6
  | always => 7

/-- The condition with a jump field; surplus bits are ignored. -/
def ofBits (bits : UInt16) : Jump :=
  match (bits &&& 7).toNat with
  | 0 => never
  | 1 => gt
  | 2 => eq
  | 3 => ge
  | 4 => lt
  | 5 => ne
  | 6 => le
  | _ => always

/-- The written form; nothing is written if there is no jump. -/
def name : Jump → Bytes
  | never => []
  | gt => ascii "JGT"
  | eq => ascii "JEQ"
  | ge => ascii "JGE"
  | lt => ascii "JLT"
  | ne => ascii "JNE"
  | le => ascii "JLE"
  | always => ascii "JMP"

def ofName? (text : Bytes) : Option Jump := [gt, eq, ge, lt, ne, le, always].find? fun j => j.name == text

end Jump

end HackPlatform.Assembly
