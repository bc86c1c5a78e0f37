import Mathlib.Data.Nat.Bitwise
import HackPlatform.Assembly.Mnemonic
import HackPlatform.Machine.Execution

/-!
# What instructions do

`Comp.value` says what a computation gives for the contents of D, of A and of the cell that A points to, and `Jump.holds` when
a jump is taken. The arithmetic unit gives that value for the bits of a computation (`output_bits`), and the fields of an
instruction word are those that it was made of (`fields_encode`).
-/

namespace HackPlatform

/-- The contents of memory. -/
abbrev Cells := Nat → Word

end HackPlatform

namespace HackPlatform.Assembly

namespace Comp

def value (d a m : Word) : Comp → Word
  | zero => 0
  | one => 1
  | minusOne => -1
  | .d => d
  | .a => a
  | .m => m
  | notD => ~~~d
  | notA => ~~~a
  | notM => ~~~m
  | negD => -d
  | negA => -a
  | negM => -m
  | incD => d + 1
  | incA => a + 1
  | incM => m + 1
  | decD => d - 1
  | decA => a - 1
  | decM => m - 1
  | dPlusA => d + a
  | dPlusM => d + m
  | dMinusA => d - a
  | dMinusM => d - m
  | aMinusD => a - d
  | mMinusD => m - d
  | dAndA => d &&& a
  | dAndM => d &&& m
  | dOrA => d ||| a
  | dOrM => d ||| m

def readsM : Comp → Bool
  | .m | notM | negM | incM | decM | dPlusM | dMinusM | mMinusD | dAndM | dOrM => true
  | _ => false

theorem readsM_eq (c : Comp) : c.readsM = (c.bits &&& 0x40 != 0) := by
  cases c <;> decide

theorem not_and_not (x y : Word) : ~~~(~~~x &&& ~~~y) = x ||| y := by
  rw [← UInt16.toBitVec_inj]
  simp [BitVec.not_and]

/-- The arithmetic unit gives the value of a computation for its second operand. Differences come from sums of inverted words. -/
theorem output_bits (c : Comp) (d a m : Word) :
    Alu.output d (if c.readsM then m else a) c.bits = c.value d a m := by
  have hnot : ∀ x : Word, ~~~x = -x - 1 := UInt16.not_eq_neg_sub
  cases c with
  | dOrA | dOrM => simp +decide [Alu.output, Alu.prepare, value, not_and_not]
  | negD | negA | negM | incD | incA | incM | decD | decA | decM | dMinusA | dMinusM | aMinusD | mMinusD =>
    simp +decide only [Alu.output, Alu.prepare, value, if_true, if_false, hnot]
    grind
  | _ => simp +decide [Alu.output, Alu.prepare, value]

end Comp

end HackPlatform.Assembly

namespace HackPlatform.Word

theorem signed_eq (w : Word) : w.signed = if w.toNat < 32768 then (w.toNat : Int) else w.toNat - 65536 := by
  have hcond := BitVec.toInt_eq_toNat_cond w.toBitVec
  show w.toBitVec.toInt = _
  rw [hcond]
  show (if 2 * w.toNat < 2 ^ 16 then (w.toNat : Int) else w.toNat - (2 ^ 16 : Nat)) = _
  split <;> split <;> omega

theorem and_sign_eq_zero_iff (w : Word) : w &&& 0x8000 = 0 ↔ w.toNat < 32768 := by
  have hlt : w.toNat < 65536 := w.toNat_lt
  rw [← UInt16.toNat_inj, UInt16.toNat_and]
  show w.toNat &&& 2 ^ 15 = 0 ↔ _
  rw [Nat.and_two_pow, Nat.testBit_eq_decide_div_mod_eq]
  by_cases h : w.toNat / 2 ^ 15 % 2 = 1
  · have hlarge : ¬w.toNat < 32768 := by omega
    rw [decide_eq_true h]
    exact iff_of_false (by decide) hlarge
  · have hsmall : w.toNat < 32768 := by omega
    rw [decide_eq_false h]
    exact iff_of_true (by decide) hsmall

theorem isNegative_eq (w : Word) : w.isNegative = decide (w.signed < 0) := by
  have hlt : w.toNat < 65536 := w.toNat_lt
  rw [isNegative, signed_eq, Bool.eq_iff_iff, bne_iff_ne, ne_eq, and_sign_eq_zero_iff, decide_eq_true_eq]
  split <;> omega

theorem signed_eq_zero_iff (w : Word) : w.signed = 0 ↔ w = 0 := by
  have hlt : w.toNat < 65536 := w.toNat_lt
  rw [signed_eq, ← UInt16.toNat_inj]
  show _ ↔ w.toNat = 0
  split <;> omega

end HackPlatform.Word

namespace HackPlatform.Assembly

namespace Jump

/-- Is the jump taken on a result? -/
def holds (w : Word) : Jump → Bool
  | never => false
  | gt => 0 < w.signed
  | eq => w.signed = 0
  | ge => 0 ≤ w.signed
  | lt => w.signed < 0
  | ne => w.signed ≠ 0
  | le => w.signed ≤ 0
  | always => true

/-- Is the jump taken, by the sign of the result and whether it is zero? -/
def taken (negative zero : Bool) : Jump → Bool
  | never => false
  | gt => !negative && !zero
  | eq => zero
  | ge => zero || !negative
  | lt => negative
  | ne => negative || !zero
  | le => negative || zero
  | always => true

theorem holds_eq_taken (j : Jump) (w : Word) : j.holds w = j.taken (decide (w.signed < 0)) (decide (w.signed = 0)) := by
  rw [Bool.eq_iff_iff]
  cases j <;> simp only [holds, taken, decide_eq_true_eq, Bool.and_eq_true, Bool.or_eq_true, Bool.not_eq_true',
    decide_eq_false_iff_not] <;> omega

end Jump

/-! ## Fields of instruction words -/

/-- The word of a compute statement. -/
def encode (dest : Dest) (comp : Comp) (jump : Jump) : Instruction :=
  Instruction.compute comp.bits dest.bits jump.bits

end HackPlatform.Assembly

namespace HackPlatform.Instruction

theorem or_and (x y z : UInt16) : (x ||| y) &&& z = (x &&& z) ||| (y &&& z) := by
  rw [← UInt16.toNat_inj]
  simp only [UInt16.toNat_and, UInt16.toNat_or, Nat.and_or_distrib_right]

theorem comp_or (x y : Instruction) : comp (x ||| y) = comp x ||| comp y := by
  simp only [comp, UInt16.shiftRight_or, or_and]

theorem dest_or (x y : Instruction) : dest (x ||| y) = dest x ||| dest y := by
  simp only [dest, UInt16.shiftRight_or, or_and]

theorem jump_or (x y : Instruction) : jump (x ||| y) = jump x ||| jump y := or_and x y 7

end HackPlatform.Instruction

namespace HackPlatform.Assembly

theorem fields_encode (dest : Dest) (comp : Comp) (jump : Jump) :
    (encode dest comp jump).isLoad = false ∧ (encode dest comp jump).comp = comp.bits ∧
      (encode dest comp jump).dest = dest.bits ∧ (encode dest comp jump).jump = jump.bits := by
  -- the upper ten bits hold the comp field only, and the lower six bits the other two
  have hupper : ∀ comp ∈ Comp.all, ((0xE000 : UInt16) ||| (comp.bits &&& 0x7F) <<< 6) &&& 0x8000 = 0x8000 ∧
      Instruction.comp ((0xE000 : UInt16) ||| (comp.bits &&& 0x7F) <<< 6) = comp.bits ∧
      Instruction.dest ((0xE000 : UInt16) ||| (comp.bits &&& 0x7F) <<< 6) = 0 ∧
      Instruction.jump ((0xE000 : UInt16) ||| (comp.bits &&& 0x7F) <<< 6) = 0 := by decide
  have hlower : ∀ a d m : Bool, ∀ jump ∈ Jump.all,
      ((Dest.bits ⟨a, d, m⟩ &&& 7) <<< 3 ||| jump.bits &&& 7) &&& 0x8000 = 0 ∧
      Instruction.comp ((Dest.bits ⟨a, d, m⟩ &&& 7) <<< 3 ||| jump.bits &&& 7) = 0 ∧
      Instruction.dest ((Dest.bits ⟨a, d, m⟩ &&& 7) <<< 3 ||| jump.bits &&& 7) = Dest.bits ⟨a, d, m⟩ ∧
      Instruction.jump ((Dest.bits ⟨a, d, m⟩ &&& 7) <<< 3 ||| jump.bits &&& 7) = jump.bits := by decide
  obtain ⟨hload, hcomp, hdest, hjump⟩ := hupper comp (by cases comp <;> decide)
  obtain ⟨hload', hcomp', hdest', hjump'⟩ := hlower dest.a dest.d dest.m jump (by cases jump <;> decide)
  rw [encode, Instruction.compute, UInt16.or_assoc]
  refine ⟨?_, ?_, ?_, ?_⟩
  · rw [Instruction.isLoad, Instruction.or_and, hload, hload']
    rfl
  · rw [Instruction.comp_or, hcomp, hcomp', UInt16.or_zero]
  · rw [Instruction.dest_or, hdest, hdest', UInt16.zero_or]
  · rw [Instruction.jump_or, hjump, hjump', UInt16.zero_or]

theorem stores_encode (dest : Dest) (comp : Comp) (jump : Jump) : (encode dest comp jump).storesA = dest.a ∧
    (encode dest comp jump).storesD = dest.d ∧ (encode dest comp jump).storesMemory = dest.m := by
  obtain ⟨-, -, hdest, -⟩ := fields_encode dest comp jump
  rw [Instruction.storesA, Instruction.storesD, Instruction.storesMemory, hdest]
  obtain ⟨a, d, m⟩ := dest
  cases a <;> cases d <;> cases m <;> decide

theorem readsMemory_encode (dest : Dest) (comp : Comp) (jump : Jump) :
    (encode dest comp jump).readsMemory = comp.readsM := by
  rw [Instruction.readsMemory, (fields_encode dest comp jump).2.1, Comp.readsM_eq]

theorem jumpsOn_encode (dest : Dest) (comp : Comp) (jump : Jump) (w : Word) :
    (encode dest comp jump).jumpsOn w = jump.holds w := by
  have hbits : ∀ jump ∈ Jump.all, ∀ negative zero : Bool,
      (jump.bits &&& 4 != 0 && negative || jump.bits &&& 2 != 0 && zero || jump.bits &&& 1 != 0 && !negative && !zero) =
        jump.taken negative zero := by decide
  have hjump : jump ∈ Jump.all := by cases jump <;> decide
  have hzero : (w == 0) = decide (w.signed = 0) := by
    rw [Bool.eq_iff_iff, beq_iff_eq, decide_eq_true_eq, Word.signed_eq_zero_iff]
  rw [Instruction.jumpsOn, (fields_encode dest comp jump).2.2.2, Word.isNegative_eq, Jump.holds_eq_taken,
    ← hbits jump hjump, ← hzero]
  rfl

/-! ## Execution -/

theorem execute_encode {c : Computer} {dest : Dest} (hstores : dest.m = true → c.a.toNat < c.ram.size) (comp : Comp)
    (jump : Jump) (operand : Word) : c.execute (encode dest comp jump) operand =
      .done (c.finish (encode dest comp jump) (Alu.output c.d operand comp.bits)) := by
  have hbound : ¬((encode dest comp jump).storesMemory && decide (c.ram.size ≤ c.a.toNat)) = true := by
    rw [(stores_encode dest comp jump).2.2, Bool.and_eq_true, decide_eq_true_eq]
    exact fun h => Nat.not_lt.mpr h.2 (hstores h.1)
  rw [Computer.execute, if_neg hbound, (fields_encode dest comp jump).2.1]

theorem finish_encode (c : Computer) (dest : Dest) (comp : Comp) (jump : Jump) (w : Word) :
    c.finish (encode dest comp jump) w =
      { c with
        pc := if jump.holds w then (c.a.toNat : Int) else c.pc + 1
        a := if dest.a then w else c.a
        d := if dest.d then w else c.d
        ram := if dest.m then c.ram.write c.a.toNat w else c.ram
        halted := c.halted || (jump.holds w && c.closesHaltLoop (encode dest comp jump)) } := by
  obtain ⟨hA, hD, hM⟩ := stores_encode dest comp jump
  simp only [Computer.finish, hA, hD, hM, jumpsOn_encode]

end HackPlatform.Assembly
