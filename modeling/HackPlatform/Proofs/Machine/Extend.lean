import HackPlatform.Proofs.Machine.Installed
import HackPlatform.Proofs.Machine.Run

/-!
# More memory

A program that stays inside of its memory does the same with more of it. The computer with more memory takes the same steps
(`Extends.step`), so its run ends in the same way (`Extends.runFor`) and leaves the same stack.
-/

namespace HackPlatform

theorem Memory.read_blank (n i : Nat) : (blank n).read i = 0 := by
  rw [read, blank, Array.getD_eq_getD_getElem?, Array.getElem?_replicate]
  split <;> rfl

theorem Memory.slice_eq {m : Memory} {first last : Nat} (h : last ≤ m.size) :
    m.slice first last = (List.range' first (last - first)).map m.read := by
  have hlength : (m.slice first last).length = last - first := by
    rw [slice, Array.length_toList, Array.size_extract, Nat.min_eq_left (Nat.le_trans h m.size_le)]
  refine List.ext_getElem (by simp [hlength]) fun k hk _ => ?_
  have hlt : first + k < m.cells.size := by
    have hle := m.size_le
    omega
  simp [slice, read, Array.getD_eq_getD_getElem?, hlt]

namespace Computer

variable {c c' next : Computer}

theorem step_of_inside {i : Instruction} (fetched : c.fetch? = some i) (computes : i.isLoad = false)
    (inside : (i.readsMemory || i.storesMemory) = true → c.a.toNat < c.ram.size) (hkeyboard : c.keyboard = none) :
    c.step = .done (c.finish i (Alu.output c.d (c.operand i) i.comp)) := by
  have hstores : i.storesMemory = true → c.a.toNat < c.ram.size := fun hm => inside (by simp [hm])
  rw [Computer.step, fetched]
  simp only [computes, Bool.false_eq_true, if_false, compute, operand]
  cases hreads : i.readsMemory with
  | true => simp only [if_true, if_pos (inside (by simp [hreads])), poll_of_none hkeyboard, execute_of_inside hstores]
  | false => simp only [Bool.false_eq_true, if_false, execute_of_inside hstores]

/-- The computer `c'` is `c` with more memory, which begins with the memory of `c`. -/
structure Extends (c c' : Computer) : Prop where
  frame : c' = { c with ram := c'.ram }
  size : c.ram.size ≤ c'.ram.size
  cells : ∀ i < c.ram.size, c'.ram.read i = c.ram.read i

namespace Extends

theorem finish (h : Extends c c') {i : Instruction} (hstores : i.storesMemory = true → c.a.toNat < c.ram.size) (result : Word) :
    Extends (c.finish i result) (c'.finish i result) := by
  obtain ⟨hframe, hsize, hcells⟩ := h
  generalize c'.ram = ram at hframe hsize hcells
  subst hframe
  refine ⟨rfl, ?_, ?_⟩
  · simp only [Computer.finish]
    split
    · exact hsize
    · exact hsize
  · simp only [Computer.finish]
    split
    · rename_i hm
      have hlt := hstores hm
      intro j hj
      rw [Memory.read_write hlt, Memory.read_write (Nat.lt_of_lt_of_le hlt hsize)]
      by_cases hja : j = c.a.toNat
      · simp [hja]
      · simp [hja, hcells j hj]
    · exact hcells

theorem step (h : Extends c c') (hkeyboard : c.keyboard = none) (hstep : c.step = .done next) :
    ∃ next', c'.step = .done next' ∧ Extends next next' := by
  have hfetch : c'.fetch? = c.fetch? := by rw [h.frame]; rfl
  have ha : c'.a = c.a := by rw [h.frame]
  have houtcome := outcome_step c
  rw [hstep] at houtcome
  cases houtcome with
  | @load i fetched loads =>
    refine ⟨{ c' with a := i.value, pc := c'.pc + 1 }, ?_, ?_⟩
    · simp only [Computer.step, hfetch, fetched, loads, if_true]
    · rw [h.frame]
      exact ⟨rfl, h.size, h.cells⟩
  | @compute i p fetched computes inside polled =>
    obtain rfl : c = p := (polled.eq_of_none hkeyboard).symm
    have hkeyboard' : c'.keyboard = none := by rw [h.frame]; exact hkeyboard
    have hinside : (i.readsMemory || i.storesMemory) = true → c'.a.toNat < c'.ram.size := fun hm =>
      ha ▸ Nat.lt_of_lt_of_le (inside hm) h.size
    have hoperand : c'.operand i = c.operand i := by
      unfold operand
      rw [ha]
      split
      · rename_i hreads
        exact h.cells _ (inside (by simp [hreads]))
      · rfl
    have hd : c'.d = c.d := by rw [h.frame]
    refine ⟨_, step_of_inside (hfetch.trans fetched) computes hinside hkeyboard', ?_⟩
    rw [hoperand, hd]
    exact h.finish (fun hm => inside (by simp [hm])) _

/-- A run that does not fail is the same with more memory. -/
theorem runFor (h : Extends c c') (hkeyboard : c.keyboard = none) (budget : Nat)
    (hdone : ∀ fault, (Computer.runFor budget c).2 ≠ .failed fault) :
    Extends (Computer.runFor budget c).1 (Computer.runFor budget c').1 ∧
      (Computer.runFor budget c').2 = (Computer.runFor budget c).2 := by
  induction budget generalizing c c' with
  | zero =>
    have hrom : c'.inRom = c.inRom := by rw [h.frame]; rfl
    simp only [Computer.runFor, hrom]
    split
    · exact ⟨h, rfl⟩
    · exact ⟨h, rfl⟩
  | succ budget ih =>
    have hrom : c'.inRom = c.inRom := by rw [h.frame]; rfl
    simp only [Computer.runFor, hrom] at hdone ⊢
    cases hin : c.inRom with
    | false => exact ⟨h, rfl⟩
    | true =>
      simp only [hin, if_true] at hdone ⊢
      cases hstep : c.step with
      | failed fault state => exact absurd (by simp [hstep]) (hdone fault)
      | done next =>
        obtain ⟨next', hstep', hnext⟩ := h.step hkeyboard hstep
        have htick : Extends next.tick next'.tick := by
          rw [hnext.frame]
          exact ⟨rfl, hnext.size, hnext.cells⟩
        have hhalted : next'.tick.halted = next.tick.halted := by rw [htick.frame]
        have hkeyboard' : next.tick.keyboard = none := (step_frame hstep).2.2.1 hkeyboard
        simp only [hstep, hstep', hhalted] at hdone ⊢
        split
        · exact ⟨htick, rfl⟩
        · rename_i hgoing
          simp only [hgoing, if_false, Bool.false_eq_true] at hdone
          exact ih htick hkeyboard' hdone

theorem stack? (h : Extends c c') {words : List Word} (hstack : c.stack? = some words) : c'.stack? = some words := by
  unfold Computer.stack? at hstack ⊢
  simp only at hstack ⊢
  split at hstack
  · simp at hstack
  · rename_i hsp
    simp only [Bool.or_eq_true, decide_eq_true_eq, not_or] at hsp
    have hbase : (stackBase : Int) = 256 := rfl
    have hsize := h.size
    have hzero : c'.ram.read 0 = c.ram.read 0 := h.cells 0 (by omega)
    have hlast : (c.ram.read 0).signed.toNat ≤ c.ram.size := by omega
    have hslice : c'.ram.slice stackBase (c.ram.read 0).signed.toNat = c.ram.slice stackBase (c.ram.read 0).signed.toNat := by
      rw [Memory.slice_eq hlast, Memory.slice_eq (Nat.le_trans hlast hsize)]
      refine List.map_congr_left fun i hi => h.cells i ?_
      rw [List.mem_range'_1] at hi
      omega
    rw [hzero, hslice, if_neg, hstack]
    simp only [Bool.or_eq_true, decide_eq_true_eq, not_or]
    omega

theorem run (h : Extends c c') (hkeyboard : c.keyboard = none) {limit : Int} (hstopped : (c.run limit).2 = .stopped)
    {words : List Word} (hstack : (c.run limit).1.stack? = some words) :
    ∃ left, c'.run limit = (left, .stopped) ∧ left.stack? = some words := by
  have hreset : Extends { c with cycles := 0, halted := false } { c' with cycles := 0, halted := false } := by
    rw [h.frame]
    exact ⟨rfl, h.size, h.cells⟩
  obtain ⟨hleft, hending⟩ := hreset.runFor hkeyboard (budget limit) fun fault hfailed => by
    simp [Computer.run, hfailed] at hstopped
  exact ⟨_, Prod.ext rfl (hending.trans hstopped), hleft.stack? hstack⟩

end Extends

theorem extends_blank (rom : Array Instruction) {n m : Nat} (h : n ≤ m) (hpos : 0 < n) (w : Word) :
    Extends { rom, ram := (Memory.blank n).write 0 w } { rom, ram := (Memory.blank m).write 0 w } := by
  refine ⟨rfl, h, fun i hi => ?_⟩
  rw [Memory.read_write (m := Memory.blank m) (Nat.lt_of_lt_of_le hpos h), Memory.read_write (m := Memory.blank n) hpos]
  by_cases hi : i = 0 <;> simp [hi, Memory.read_blank]

end Computer
end HackPlatform
