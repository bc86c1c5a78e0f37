import HackPlatform.Assembly.Mnemonic
import HackPlatform.Stream.Guarded
import HackPlatform.Text.Numeral

/-!
# Listings

A listing shows the instructions of a program in their written form. A comp field that belongs to no computation is shown as
a question mark and its seven bits.
-/

namespace HackPlatform.Assembly.Listing

def compText (bits : UInt16) : Bytes :=
  match Comp.ofBits? bits with
  | some comp => comp.name
  | none => 63 :: Numeral.binary 7 bits.toNat

/-- The texts that make up an instruction. -/
def texts (i : Instruction) : List Bytes :=
  if i.isLoad then [[64], Numeral.ofNat i.value.toNat]
  else
    (if i.dest = 0 then [] else [(Dest.ofBits i.dest).name, [61]]) ++ [compText i.comp] ++
      (if i.jump = 0 then [] else [[59], (Jump.ofBits i.jump).name])

/-- The text of an address: a column of six characters with room for a sign, and a tab. -/
def addressText (address : Int) : Bytes :=
  let digits := Numeral.ofInt address
  Numeral.padLeft 6 (if 0 ≤ address then 32 :: digits else digits) ++ [9]

/-- The texts of a line: the address, the instruction, the end of the line. -/
def lineTexts (address : Int) (i : Instruction) : List Bytes := addressText address :: texts i ++ [[10]]

/-- The texts of a listing whose first instruction has the address `base`. Addresses are 64-bit integers. -/
def allTexts (base : Int64) (rom : Array Instruction) : List Bytes :=
  rom.toList.zipIdx.flatMap fun (i, k) => lineTexts (base + Int64.ofNat k).toInt i

/-- Writes the instruction at an address; `none` if there is none. -/
def writeOne? (sink : Stream.Sink) (rom : Array Instruction) (pc : Int) :
    Option (Stream.Sink × Option Stream.Error) :=
  if 0 ≤ pc then rom[pc.toNat]?.map fun i => Stream.emit sink (texts i) else none

def writeAll (sink : Stream.Sink) (base : Int64) (rom : Array Instruction) : Stream.Sink × Option Stream.Error :=
  Stream.emit sink (allTexts base rom)

end HackPlatform.Assembly.Listing
