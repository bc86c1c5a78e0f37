import HackPlatform.Proofs.Code.Placed
import HackPlatform.Proofs.Code.Simulation

/-!
# Operations anywhere in a program

The block of an operation does what the operation means wherever it stands in an assembled text, for all operands, in memory
of any size (`arithmetic_block_performs`). The labels of a comparison can always be loaded, although instruction memory may be full: two
instructions of the block stand behind the last of them (`label_lt_of_installed`).
-/

namespace HackPlatform.Code

open Assembly (Installed labelNames size symbolValue)
open Stack (Op sp)

theorem exists_arithmetic (s : Scope) {op : Op} (h : op ∈ Op.all) : ∃ block s', s.arithmetic op = .ok (block, s') := by
  cases op with
  | unknown code => exact absurd h (by simp [Op.all])
  | _ => exact ⟨_, _, rfl⟩

theorem wellNamed_arithmetic {s s' : Scope} {op : Op} {block : Block} (h : s.arithmetic op = .ok (block, s')) :
    ∀ st ∈ block, st.WellNamed := by
  -- the names of the scope are not used, so they may be left out
  have hlower : Scope.lower { s with file := [], function := none } (.arithmetic op) =
      .ok (block, { s' with file := [], function := none }) := by
    cases op with
    | unknown code => exact absurd h (by simp [Scope.arithmetic])
    | _ =>
      obtain ⟨rfl, rfl⟩ := Prod.mk.inj (Except.ok.inj h)
      rfl
  exact (lowers_of_lower hlower).wellNamed ⟨by simp, by simp⟩

theorem label_lt_of_installed {s s' : Scope} {op : Op} {block : Block} {rom : Array Instruction} {value : Bytes → Nat}
    {pc : Nat} (h : Lowers s (.arithmetic op) block s') (hinstalled : Installed rom value pc block)
    (hsize : pc + size block ≤ Memory.maxSize) : ∀ name ∈ labelNames block, value name < Memory.maxSize := by
  cases h with
  | compare order =>
    obtain ⟨front, hblock, hnames⟩ : ∃ front, (comparison order).block (s.count order) =
        front ++ [Block.register "SP", Block.setM .decM] ∧
          labelNames ((comparison order).block (s.count order)) = labelNames front :=
      ⟨((comparison order).block (s.count order)).take 42, rfl, rfl⟩
    intro name hname
    rw [hnames] at hname
    rw [hblock] at hinstalled hsize
    have hle := value_le_of_installed ((Assembly.installed_append _ _).mp hinstalled).1 hname
    have hbehind : size [Block.register "SP", Block.setM .decM] = 2 := rfl
    rw [Assembly.size_append, hbehind] at hsize
    omega
  | binary operation => exact fun name hname => absurd hname List.not_mem_nil
  | unary operation => exact fun name hname => absurd hname List.not_mem_nil

/-- The block of an operation performs it wherever the block stands in a program that is assembled. From the first instruction of
the block, without a keyboard and with the operands in memory, above cell 0, the computer gets behind the block without an
error. The value of the operation on two words has then taken the place of the lower one, and the stack pointer has gone down
by one; that on one word has taken its place. Nothing else in memory has changed. -/
theorem arithmetic_block_performs (s : Scope) {op : Op} (hop : op ∈ Op.all) :
    ∃ block s', s.arithmetic op = .ok (block, s') ∧
      ∀ text name rom pc, Assembly.assemble name (Source.ofBytes text) = .ok rom → StandsAt text pc block →
      ∀ machine : Computer, machine.rom = rom → machine.pc = pc → machine.keyboard = none →
        (if op.isBinary then 3 else 2) ≤ sp machine.ram.read → sp machine.ram.read ≤ machine.ram.size →
        ∃ machine', machine.Reaches machine' ∧ machine'.pc = (pc + size block : Nat) ∧ machine'.ram.size = machine.ram.size ∧
          let m := machine.ram.read
          let m' := machine'.ram.read
          (∀ f, op.binary? = some f → m' (sp m - 2) = f (m (sp m - 2)) (m (sp m - 1)) ∧ sp m' = sp m - 1 ∧
            ∀ i, i ≠ 0 → i ≠ sp m - 2 → m' i = m i) ∧
          (∀ f, op.unary? = some f → m' (sp m - 1) = f (m (sp m - 1)) ∧ sp m' = sp m ∧
            ∀ i, i ≠ sp m - 1 → m' i = m i) := by
  obtain ⟨block, s', hblock⟩ := exists_arithmetic s hop
  refine ⟨block, s', hblock, ?_⟩
  rintro text name rom pc hassemble hstands machine rfl hpc hkeyboard hlower hupper
  have hlowers : Lowers s (.arithmetic op) block s' := lowers_of_lower hblock
  obtain ⟨program, hprogram⟩ := exists_installed hassemble
  obtain ⟨hinstalled, -, hsize⟩ := hprogram pc block (wellNamed_arithmetic hblock) hstands
  have hlabels := label_lt_of_installed hlowers hinstalled hsize
  have hsp : (if op.isBinary then 3 else 1) ≤ sp machine.ram.read := by
    cases hbinary : op.isBinary <;> simp only [hbinary, if_true, Bool.false_eq_true, if_false] at hlower ⊢ <;> omega
  obtain ⟨m', hperform, hmoves⟩ := moves_operation hlowers hinstalled hlabels hsp hupper
  obtain ⟨machine', a, d, hreaches, hshows⟩ := hmoves machine machine.a machine.d ⟨rfl, hpc, rfl, hkeyboard, rfl, rfl, rfl⟩
  refine ⟨machine', hreaches, hshows.pc, hshows.size, ?_⟩
  simp only [hshows.cells]
  refine ⟨fun f hf => ?_, fun f hf => ?_⟩
  · rw [Op.isBinary_of_binary? hf, if_pos rfl] at hlower
    simp only [Op.perform?, hf, Option.some.injEq] at hperform
    subst hperform
    refine ⟨?_, ?_, fun i h0 hi => ?_⟩
    · rw [Function.update_of_ne (by omega), Function.update_self]
    · rw [sp, Function.update_self]
      exact toNat_below (by omega)
    · rw [Function.update_of_ne h0, Function.update_of_ne hi]
  · rw [Op.isBinary_of_unary? hf, if_neg (by simp)] at hlower
    have hnone : op.binary? = none := by cases op <;> simp [Op.unary?, Op.binary?] at hf ⊢
    simp only [Op.perform?, hnone, hf, Option.map_some, Option.some.injEq] at hperform
    subst hperform
    refine ⟨?_, ?_, fun i hi => ?_⟩
    · rw [Function.update_self]
    · rw [sp, Function.update_of_ne (by omega)]
      rfl
    · rw [Function.update_of_ne hi]

/-- The least and the greatest number are compared at the bottom of the stack in four cells of memory. Their difference has no
place in a word. -/
theorem arithmetic_block_performs_lt :
    let s : Scope := { ltCount := 3 }
    let text := Block.text (Block.number 7 :: Comparison.lt.block 3)
    let ram := (((Memory.blank 4).write 0 3).write 1 0x8000).write 2 0x7FFF
    Op.lt ∈ Op.all ∧ s.arithmetic .lt = .ok (Comparison.lt.block 3, { s with ltCount := 4 }) ∧
      StandsAt text 1 (Comparison.lt.block 3) ∧
      ∃ rom, Assembly.assemble [] (Source.ofBytes text) = .ok rom ∧
        let machine : Computer := { rom, ram, pc := 1 }
        ∃ machine', machine.Reaches machine' ∧ machine'.pc = 40 ∧ machine'.ram.read 1 = -1 ∧ sp machine'.ram.read = 2 := by
  intro s text ram
  have hstands : StandsAt text 1 (Comparison.lt.block 3) :=
    ⟨Block.text [Block.number 7], [], by decide +kernel, by decide +kernel, by decide +kernel⟩
  obtain ⟨rom, hassemble, -⟩ : ∃ rom, Assembly.assemble [] (Source.ofBytes text) = .ok rom ∧
      rom.size = size (Block.number 7 :: Comparison.lt.block 3) :=
    assemble_text [] (by decide +kernel) (by decide +kernel) (by decide +kernel) (by decide +kernel)
  have hop : Op.lt ∈ Op.all := by decide
  have hcells : sp ram.read = 3 ∧ ram.read 1 = 0x8000 ∧ ram.read 2 = 0x7FFF := by decide +kernel
  refine ⟨hop, rfl, hstands, rom, hassemble, ?_⟩
  intro machine
  obtain ⟨block, s', hblock, hperforms⟩ := arithmetic_block_performs s hop
  obtain ⟨rfl, rfl⟩ := Prod.mk.inj (Except.ok.inj hblock)
  obtain ⟨machine', hreaches, hpc, -, hbinary, -⟩ := hperforms text [] rom 1 hassemble hstands machine rfl rfl rfl
    (Nat.le_of_eq hcells.1.symm) (Nat.le_trans (Nat.le_of_eq hcells.1) (show 3 ≤ 4 by decide))
  obtain ⟨hvalue, hsp, -⟩ := hbinary _ rfl
  rw [show machine.ram = ram from rfl, hcells.1] at hvalue hsp
  rw [hcells.2.1, hcells.2.2] at hvalue
  exact ⟨machine', hreaches, hpc, hvalue, hsp⟩

end HackPlatform.Code
