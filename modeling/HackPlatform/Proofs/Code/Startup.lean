import HackPlatform.Proofs.Code.Placed

/-!
# Start-up code forgets the stack pointer

Computers that differ in nothing but cell 0 are twins. The first instructions of the start-up code store in cell 0 and read nothing, so
twins that run it become equal, and whatever the budget of cycles is, nobody can tell their runs apart (`runsAlike_of_resetStack`):
either the computers that are left are equal, or the budget was used up while they were twins.
-/

namespace HackPlatform

open Assembly (Installed encode)

theorem Memory.write_write (m : Memory) (i : Nat) (x y : Word) : (m.write i x).write i y = m.write i y := by
  simp [write]

theorem Memory.write_comm (m : Memory) {i j : Nat} (h : i ≠ j) (x y : Word) :
    (m.write i x).write j y = (m.write j y).write i x := by
  simp only [write, Array.setIfInBounds_comm x y h]

/-- Memories that differ in no cell but the first. -/
def Memory.Twins (m m' : Memory) : Prop := ∀ w, m.write 0 w = m'.write 0 w

namespace Memory.Twins

variable {m m' : Memory}

theorem size_eq (h : Twins m m') : m.size = m'.size := by
  show (m.write 0 0).size = (m'.write 0 0).size
  rw [h 0]

theorem write (h : Twins m m') {i : Nat} (hi : i ≠ 0) (w : Word) : Twins (m.write i w) (m'.write i w) := by
  intro x
  rw [m.write_comm hi, m'.write_comm hi, h x]

theorem write_zero (m : Memory) (w : Word) : Twins m (m.write 0 w) := fun x => (m.write_write 0 w x).symm

end Memory.Twins

namespace Computer

/-- Computers that differ in nothing but the word at address zero. -/
structure Twins (c c' : Computer) : Prop where
  frame : c' = { c with ram := c'.ram }
  ram : c.ram.Twins c'.ram

/-- What two runs leave is the same, or would be but for the word at address zero if their budgets were used up. -/
structure EndsAlike (r r' : Computer × Ending) : Prop where
  ending : r'.2 = r.2
  left : r'.1 = r.1 ∨ r.2 = .exhausted ∧ Twins r.1 r'.1

def RunsAlike (c c' : Computer) : Prop := ∀ budget, EndsAlike (runFor budget c) (runFor budget c')

theorem EndsAlike.refl (r : Computer × Ending) : EndsAlike r r := ⟨rfl, .inl rfl⟩

namespace Twins

variable {c c' n n' : Computer}

theorem runsAlike_of_step (h : Twins c c') (hrom : c.inRom = true) (hstep : c.step = .done n) (hstep' : c'.step = .done n')
    (hhalted : n.halted = false) (hhalted' : n'.halted = false) (hnext : RunsAlike n.tick n'.tick) : RunsAlike c c' := by
  have hrom' : c'.inRom = true := by
    rw [h.frame]
    exact hrom
  intro budget
  cases budget with
  | zero =>
    simp only [runFor, hrom, hrom', if_true]
    exact ⟨rfl, .inr ⟨rfl, h⟩⟩
  | succ budget =>
    have htick : n.tick.halted = false ∧ n'.tick.halted = false := ⟨hhalted, hhalted'⟩
    simp only [runFor, hrom, hrom', hstep, hstep', htick, if_true, Bool.false_eq_true, if_false]
    exact hnext budget

end Twins

variable {c c' : Computer} {pc : Nat}

theorem inRom_of_get {w : Instruction} (hpc : c.pc = pc) (hw : c.rom[pc]? = some w) : c.inRom = true := by
  have hlt : pc < c.rom.size := (Array.getElem?_eq_some_iff.mp hw).1
  simp only [inRom, hpc, Bool.and_eq_true, decide_eq_true_eq]
  omega

theorem step_load {w : Instruction} (hpc : c.pc = pc) (hw : c.rom[pc]? = some w) (hlt : w.toNat < Memory.maxSize) :
    c.step = .done { c with a := w, pc := (pc + 1 : Nat) } := by
  have hfetch : c.fetch? = some w := by rw [fetch?, hpc, ← hw]
  rw [step_of_fetch? hfetch hlt, hpc]
  rfl

theorem step_compute {dest : Assembly.Dest} {comp : Assembly.Comp} (hpc : c.pc = pc)
    (hw : c.rom[pc]? = some (encode dest comp .never)) (hreads : comp.readsM = false)
    (hstores : dest.m = true → c.a.toNat < c.ram.size) :
    c.step = .done { c with
      pc := (pc + 1 : Nat)
      a := if dest.a then Alu.output c.d c.a comp.bits else c.a
      d := if dest.d then Alu.output c.d c.a comp.bits else c.d
      ram := if dest.m then c.ram.write c.a.toNat (Alu.output c.d c.a comp.bits) else c.ram } := by
  have hload := (Assembly.fields_encode dest comp .never).1
  have hjump : ∀ w, Assembly.Jump.never.holds w = false := fun w => rfl
  simp [step, fetch?, hpc, hw, hload, compute, Assembly.readsMemory_encode, hreads, Assembly.execute_encode hstores,
    Assembly.finish_encode, hjump]

/-- Twins that start with the start-up code run alike. -/
theorem runsAlike_of_resetStack {value : Bytes → Nat} (h : Twins c c') (hpc : c.pc = 0) (hhalted : c.halted = false)
    (hroom : 0 < c.ram.size) (hinstalled : Installed c.rom value 0 Code.Block.resetStack) (hvalue : value (ascii "SP") = 0) :
    RunsAlike c c' := by
  obtain ⟨h0, h1, h2, h3, -⟩ := hinstalled
  obtain ⟨hframe, hram⟩ := h
  generalize c'.ram = ram at hframe hram
  subst hframe
  have hroom' : 0 < ram.size := hram.size_eq ▸ hroom
  have hstack : (Word.ofInt 256).toNat < Memory.maxSize := by decide
  have hzero : (value (ascii "SP")).toUInt16 = 0 := by rw [hvalue]; rfl
  simp only [Assembly.Operand.word, hzero] at h0 h2
  -- each step but the last leaves twins, and the last one equal computers
  refine Twins.runsAlike_of_step ⟨rfl, hram⟩ (inRom_of_get hpc h0) (step_load hpc h0 hstack) (step_load hpc h0 hstack)
    hhalted hhalted ?_
  refine Twins.runsAlike_of_step ⟨rfl, hram⟩ (inRom_of_get rfl h1) (step_compute rfl h1 rfl (by simp))
    (step_compute rfl h1 rfl (by simp)) hhalted hhalted ?_
  refine Twins.runsAlike_of_step ⟨rfl, hram⟩ (inRom_of_get rfl h2) (step_load rfl h2 (by decide))
    (step_load rfl h2 (by decide)) hhalted hhalted ?_
  refine Twins.runsAlike_of_step ⟨rfl, hram⟩ (inRom_of_get rfl h3) (step_compute rfl h3 rfl fun _ => hroom)
    (step_compute rfl h3 rfl fun _ => hroom') hhalted hhalted ?_
  have hsame : ∀ w, c.ram.write (0 : Word).toNat w = ram.write (0 : Word).toNat w := hram
  intro budget
  simp only [tick, if_true, Bool.false_eq_true, if_false, hsame]
  exact .refl _

end Computer

namespace Code

theorem exists_installed_resetStack {text name : Bytes} {rom : Array Instruction}
    (hassemble : Assembly.assemble name (Source.ofBytes text) = .ok rom) (hstart : Block.resetStack.text <+: text) :
    ∃ value, Installed rom value 0 Block.resetStack ∧ value (ascii "SP") = 0 := by
  obtain ⟨rest, rfl⟩ := hstart
  obtain ⟨program, hprogram⟩ := exists_installed hassemble
  have hnamed : ∀ st ∈ Block.resetStack, st.WellNamed := by
    have hregister : (Block.register "SP").WellNamed := Assembly.Statement.isSymbol_of_predefined rfl
    simpa [Block.resetStack, hregister] using ⟨trivial, trivial, trivial⟩
  exact ⟨_, (hprogram 0 _ hnamed ⟨[], rest, rfl, .inl rfl, rfl⟩).1, rfl⟩

end Code

end HackPlatform
