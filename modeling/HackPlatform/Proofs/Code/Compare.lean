import HackPlatform.Proofs.Code.Effect
import HackPlatform.Proofs.Code.Label

/-!
# What comparisons do

The block of a comparison looks at the signs of its operands before it subtracts. `Comparison.answer` is the decision that its
branches make, and it is the one that the order of signed numbers asks for (`answer_comparison`): operands of like sign
cannot overflow when they are subtracted.
-/

namespace HackPlatform.Code

open Assembly
open Function (update)
open Stack (sp)
open Computer (View)

/-! ## Decisions -/

theorem signed_sub {x y : Word} (h : x.signed < 0 ↔ y.signed < 0) : (x - y).signed = x.signed - y.signed := by
  have hx : x.toNat < 65536 := x.toNat_lt
  have hy : y.toNat < 65536 := y.toNat_lt
  have hsub : (x - y).toNat = (65536 - y.toNat + x.toNat) % 65536 := UInt16.toNat_sub x y
  simp only [Word.signed_eq, hsub] at h ⊢
  split <;> split <;> split <;> omega

/-- What the block of a comparison decides. -/
def Comparison.answer (c : Comparison) (x y : Word) : Bool :=
  if x.signed < 0 ∧ 0 ≤ y.signed then c.lowerNegative
  else if 0 ≤ x.signed ∧ y.signed < 0 then c.upperNegative
  else c.jump.holds (x - y)

theorem holds_iff_compare {x y : Word} (order : Ordering) (h : x.signed < 0 ↔ y.signed < 0) :
    (comparison order).jump.holds (x - y) = true ↔ compare x.signed y.signed = order := by
  cases order with
  | eq =>
    simp only [comparison, Comparison.eq, Jump.holds, signed_sub h, decide_eq_true_eq, compare_eq_iff_eq]
    omega
  | lt =>
    simp only [comparison, Comparison.lt, Jump.holds, signed_sub h, decide_eq_true_eq, compare_lt_iff_lt]
    omega
  | gt =>
    simp only [comparison, Comparison.gt, Jump.holds, signed_sub h, decide_eq_true_eq, compare_gt_iff_gt]
    omega

theorem answer_comparison (order : Ordering) (x y : Word) :
    (comparison order).answer x y = decide (compare x.signed y.signed = order) := by
  rw [Bool.eq_iff_iff, decide_eq_true_eq]
  unfold Comparison.answer
  split
  · have hlt : compare x.signed y.signed = .lt := compare_lt_iff_lt.mpr (by omega)
    rw [hlt]
    cases order <;> decide
  · split
    · have hgt : compare x.signed y.signed = .gt := compare_gt_iff_gt.mpr (by omega)
      rw [hgt]
      cases order <;> decide
    · exact holds_iff_compare order (by omega)

/-! ## Blocks -/

namespace Comparison

def readLower : Block := [Block.register "SP", Block.setA .decM, Block.setA .decA, Block.setD .m]

def readUpper : Block := [Block.register "SP", Block.setA .decM, Block.setD .m]

def readDifference : Block :=
  [Block.register "SP", Block.setA .decM, Block.setD .m, Block.setA .decA, Block.setD .mMinusD]

def writeAnswer (comp : Comp) : Block := [Block.register "SP", Block.setA .decM, Block.setA .decA, Block.setM comp]

theorem block_eq (c : Comparison) (n : Nat) : c.block n =
    (readLower ++ [Block.symbol (c.label "_X_NONNEG" n), Block.jumpIf .d .ge]) ++
    ((readUpper ++ [Block.symbol (c.label "_SAME_SIGN" n), Block.jumpIf .d .lt]) ++
    (Block.goto (if c.lowerNegative then c.label "_TRUE" n else c.label "_FALSE" n) ++
    ((.label (c.label "_X_NONNEG" n) :: readUpper ++ [Block.symbol (c.label "_SAME_SIGN" n), Block.jumpIf .d .ge]) ++
    (Block.goto (if c.upperNegative then c.label "_TRUE" n else c.label "_FALSE" n) ++
    ((.label (c.label "_SAME_SIGN" n) :: readDifference ++ [Block.symbol (c.label "_TRUE" n), Block.jumpIf .d c.jump]) ++
    ((.label (c.label "_FALSE" n) :: writeAnswer .zero ++ Block.goto (c.label "_END" n)) ++
    ((.label (c.label "_TRUE" n) :: writeAnswer .minusOne) ++
    [.label (c.label "_END" n), Block.register "SP", Block.setM .decM]))))))) := rfl

end Comparison

section

variable {rom : Array Instruction} {program : List Statement} {room pc : Nat} {m : Cells}

theorem moves_test {part : Block} {label : Bytes} {jump : Jump} {w : Word}
    (hinstalled : Installed rom (symbolValue program) pc (part ++ [Block.symbol label, Block.jumpIf .d jump]))
    (hpart : ∀ a d, ∃ a', exec (symbolValue program) room part ⟨a, d, m⟩ = some ⟨a', w, m⟩)
    (hlabel : symbolValue program label < Memory.maxSize) :
    Moves rom room pc m (if jump.holds w then symbolValue program label
      else pc + size (part ++ [Block.symbol label, Block.jumpIf .d jump])) m := by
  have hsplit : part ++ [Block.symbol label, Block.jumpIf .d jump] =
      (part ++ [Block.symbol label]) ++ [.compute {} .d jump] := by simp [Block.jumpIf]
  rw [hsplit] at hinstalled ⊢
  refine .jump hinstalled rfl fun a d => ?_
  obtain ⟨a', hexec⟩ := hpart a d
  refine ⟨⟨(symbolValue program label).toUInt16, w, m⟩, ?_, rfl, ?_⟩
  · rw [exec_append, hexec, Option.bind_some, exec_symbol [] hlabel, exec_nil]
  · simp only [Comp.result_d, toNat_toUInt16 hlabel]

section

variable (hlower : 3 ≤ sp m) (hupper : sp m ≤ room)

include hlower hupper

theorem operands : (m 0 - 1).toNat = sp m - 1 ∧ (m 0 - 1 - 1).toNat = sp m - 2 ∧
    0 < room ∧ sp m - 1 < room ∧ sp m - 2 < room := by
  have h1 : (m 0 - 1).toNat = sp m - 1 := toNat_below (by omega)
  refine ⟨h1, ?_, by omega, by omega, by omega⟩
  rw [toNat_sub_one (by omega), h1]
  rfl

theorem exec_readLower (a d : Word) :
    ∃ a', exec (symbolValue program) room Comparison.readLower ⟨a, d, m⟩ = some ⟨a', m (sp m - 2), m⟩ := by
  obtain ⟨h1, h2, hlt⟩ := operands hlower hupper
  simp [Comparison.readLower, h1, h2, hlt]

theorem exec_readUpper (a d : Word) :
    ∃ a', exec (symbolValue program) room Comparison.readUpper ⟨a, d, m⟩ = some ⟨a', m (sp m - 1), m⟩ := by
  obtain ⟨h1, -, hlt⟩ := operands hlower hupper
  simp [Comparison.readUpper, h1, hlt]

theorem exec_readDifference (a d : Word) : ∃ a', exec (symbolValue program) room Comparison.readDifference ⟨a, d, m⟩ =
    some ⟨a', m (sp m - 2) - m (sp m - 1), m⟩ := by
  obtain ⟨h1, h2, hlt⟩ := operands hlower hupper
  simp [Comparison.readDifference, h1, h2, hlt]

theorem exec_writeAnswer {comp : Comp} {w : Word} (hcomp : ∀ v, comp.result v = w) (a d : Word) :
    ∃ a' d', exec (symbolValue program) room (Comparison.writeAnswer comp) ⟨a, d, m⟩ = some ⟨a', d', update m (sp m - 2) w⟩ := by
  obtain ⟨h1, h2, hlt⟩ := operands hlower hupper
  simp [Comparison.writeAnswer, h1, h2, hlt, hcomp]

theorem moves_answer {no yes done : Bytes} {pc' : Nat}
    (hfalse : Installed rom (symbolValue program) (symbolValue program no)
      ((.label no :: Comparison.writeAnswer .zero) ++ Block.goto done))
    (htrue : Installed rom (symbolValue program) (symbolValue program yes) (.label yes :: Comparison.writeAnswer .minusOne))
    (hbehind : symbolValue program done = symbolValue program yes + size (.label yes :: Comparison.writeAnswer .minusOne))
    (hdone : symbolValue program done < Memory.maxSize)
    (hlast : ∀ m', Moves rom room (symbolValue program done) m' pc' (update m' 0 (m' 0 - 1))) (b : Bool) :
    Moves rom room (symbolValue program (if b then yes else no)) m pc'
      (update (update m (sp m - 2) (Stack.truth b)) 0 (m 0 - 1)) := by
  have hwritten : Moves rom room (symbolValue program (if b then yes else no)) m (symbolValue program done)
      (update m (sp m - 2) (Stack.truth b)) := by
    cases b with
    | false =>
      obtain ⟨hwrite, hgoto⟩ := (installed_append _ _).mp hfalse
      exact (Moves.straight hwrite (exec_writeAnswer hlower hupper Comp.result_zero)).trans (moves_goto hgoto hdone)
    | true =>
      rw [hbehind]
      exact .straight htrue (exec_writeAnswer hlower hupper Comp.result_minusOne)
  have hmoves := hwritten.trans (hlast _)
  rwa [Function.update_of_ne (by omega : 0 ≠ sp m - 2)] at hmoves

theorem moves_compare {c : Comparison} {n : Nat} (hinstalled : Installed rom (symbolValue program) pc (c.block n))
    (hlabels : ∀ role ∈ roles, symbolValue program (c.label role n) < Memory.maxSize) :
    Moves rom room pc m (pc + size (c.block n))
      (update (update m (sp m - 2) (Stack.truth (c.answer (m (sp m - 2)) (m (sp m - 1))))) 0 (m 0 - 1)) := by
  simp only [roles, List.forall_mem_cons] at hlabels
  obtain ⟨hnonneg, hsame, hno, hyes, hend, -⟩ := hlabels
  have hchoice : ∀ b : Bool, symbolValue program (if b then c.label "_TRUE" n else c.label "_FALSE" n) < Memory.maxSize := by
    intro b
    cases b
    · exact hno
    · exact hyes
  rw [c.block_eq] at hinstalled
  obtain ⟨hlowerSign, hrest⟩ := (installed_append _ _).mp hinstalled
  obtain ⟨hupperSign, hrest⟩ := (installed_append _ _).mp hrest
  obtain ⟨hlowerOnly, hrest⟩ := (installed_append _ _).mp hrest
  obtain ⟨hupperSign', hrest⟩ := (installed_append _ _).mp hrest
  obtain ⟨hupperOnly, hrest⟩ := (installed_append _ _).mp hrest
  obtain ⟨hdifference, hrest⟩ := (installed_append _ _).mp hrest
  obtain ⟨hfalse, hrest⟩ := (installed_append _ _).mp hrest
  obtain ⟨htrue, hdone⟩ := (installed_append _ _).mp hrest
  -- a part behind a label is installed where the label is
  have hfalseAt := ((installed_append _ _).mp hfalse).1.1
  have hsameAt := ((installed_append _ _).mp hdifference).1.1
  have hnonnegAt := ((installed_append _ _).mp hupperSign').1.1
  have hlast : ∀ m', Moves rom room (symbolValue program (c.label "_END" n)) m' (pc + size (c.block n))
      (update m' 0 (m' 0 - 1)) := by
    intro m'
    have hroom : 0 < room := by omega
    have hmoves : Moves rom room _ m' _ (update m' 0 (m' 0 - 1)) := .straight hdone fun a d => by simp [exec, hroom]
    have hsize : symbolValue program (c.label "_END" n) +
        size [.label (c.label "_END" n), Block.register "SP", Block.setM .decM] = pc + size (c.block n) := by
      rw [hdone.1, c.block_eq]
      simp only [size_append, Nat.add_assoc]
    rwa [← hdone.1, hsize] at hmoves
  have hbehind := hdone.1
  rw [← htrue.1] at hbehind
  rw [← hfalseAt] at hfalse
  rw [← htrue.1] at htrue
  have hanswer := moves_answer hlower hupper hfalse htrue hbehind hend hlast
  -- like signs
  have hlike : Moves rom room (symbolValue program (c.label "_SAME_SIGN" n)) m (pc + size (c.block n))
      (update (update m (sp m - 2) (Stack.truth (c.jump.holds (m (sp m - 2) - m (sp m - 1))))) 0 (m 0 - 1)) := by
    have htest := moves_test hdifference (exec_readDifference hlower hupper) hyes
    rw [← hfalseAt, ← hsameAt, ← apply_ite (symbolValue program)] at htest
    exact htest.trans (hanswer _)
  -- the signs
  have hfirst := moves_test hlowerSign (exec_readLower hlower hupper) hnonneg
  simp only [Jump.holds, decide_eq_true_eq] at hfirst
  by_cases hx : 0 ≤ (m (sp m - 2)).signed
  · have hsecond := moves_test hupperSign' (exec_readUpper hlower hupper) hsame
    rw [← hnonnegAt] at hsecond hupperOnly
    simp only [Jump.holds, decide_eq_true_eq] at hsecond
    rw [if_pos hx] at hfirst
    by_cases hy : 0 ≤ (m (sp m - 1)).signed
    · rw [if_pos hy] at hsecond
      rw [Comparison.answer, if_neg (by omega), if_neg (by omega)]
      exact hfirst.trans (hsecond.trans hlike)
    · rw [if_neg hy] at hsecond
      rw [Comparison.answer, if_neg (by omega), if_pos (by omega)]
      exact hfirst.trans (hsecond.trans ((moves_goto hupperOnly (hchoice _)).trans (hanswer _)))
  · have hsecond := moves_test hupperSign (exec_readUpper hlower hupper) hsame
    simp only [Jump.holds, decide_eq_true_eq] at hsecond
    rw [if_neg hx] at hfirst
    by_cases hy : (m (sp m - 1)).signed < 0
    · rw [if_pos hy] at hsecond
      rw [Comparison.answer, if_neg (by omega), if_neg (by omega)]
      exact hfirst.trans (hsecond.trans hlike)
    · rw [if_neg hy] at hsecond
      rw [Comparison.answer, if_pos (by omega)]
      exact hfirst.trans (hsecond.trans ((moves_goto hlowerOnly (hchoice _)).trans (hanswer _)))

end

end

end HackPlatform.Code
