import HackPlatform.Proofs.Machine.Installed
import HackPlatform.Proofs.Machine.Run

/-!
# Halt loops are final

A run that stops in a halt loop stops at its first instruction, which loads what A holds already. The jump behind it is always taken
and stores nothing, and the cell that it may read exists, since it was read when the loop was entered (`parked_of_step`). So the
computer goes back and forth between the two instructions for ever, and nothing but the program counter changes
(`Parked.after?_eq`). This needs the address of the loop to be a number that can be loaded, which is so if instruction memory has no
more than 32768 words: above them, the word that equals its own address is a computation.
-/

namespace HackPlatform.Computer

variable {c s : Computer} {i : Instruction}

/-- The computer has no keyboard, has entered a halt loop with the jump `i`, and is about to load the address of the loop. -/
structure Parked (i : Instruction) (c : Computer) : Prop where
  halted : c.halted = true
  keyboard : c.keyboard = none
  pc : c.pc = c.a.toNat
  load : c.rom[c.a.toNat]? = some c.a
  small : c.a.toNat < Memory.maxSize
  jump : c.rom[c.a.toNat + 1]? = some i
  computes : i.isLoad = false
  always : i.jump = 7
  nowhere : i.dest = 0
  inside : i.readsMemory = true → c.a.toNat < c.ram.size

theorem finish_of_jump (halways : i.jump = 7) (hnowhere : i.dest = 0) (result : Word) :
    c.finish i result = { c with pc := c.a.toNat, halted := c.halted || c.closesHaltLoop i } := by
  simp +decide [finish, jumpsOn_of_jump_eq halways, Instruction.storesA, Instruction.storesD, Instruction.storesMemory, hnowhere]

theorem storesMemory_of_dest (hnowhere : i.dest = 0) : i.storesMemory = false := by
  rw [Instruction.storesMemory, hnowhere]
  decide

theorem parked_of_step (henters : c.EntersHaltLoop) (hstep : c.step = .done s) (hrom : c.rom.size ≤ 32768)
    (hkeyboard : c.keyboard = none) : ∃ i, s.Parked i := by
  obtain ⟨i, fetched, computes, always, nowhere, hpc, hload⟩ := henters
  have houtcome := outcome_step c
  rw [hstep] at houtcome
  cases houtcome with
  | load fetched' loads =>
    obtain rfl := Option.some.inj (fetched.symm.trans fetched')
    exact absurd (loads.symm.trans computes) (by simp)
  | compute fetched' computes' inside polled =>
    obtain rfl := Option.some.inj (fetched.symm.trans fetched')
    rw [polled.eq_of_none hkeyboard]
    -- the jump stands behind the instruction that A points to
    have hjump : c.rom[c.a.toNat + 1]? = some i := by
      rw [← fetched, fetch?, show c.pc = ((c.a.toNat + 1 : Nat) : Int) by omega]
    have hlt : c.a.toNat + 1 < c.rom.size := (Array.getElem?_eq_some_iff.mp hjump).1
    rw [finish_of_jump always nowhere, closesHaltLoop_iff.mpr ⟨always, nowhere, hpc, hload⟩]
    refine ⟨i, by simp, hkeyboard, rfl, hload, ?_, hjump, computes, always, nowhere, fun reads => inside (by simp [reads])⟩
    show c.a.toNat < 32768
    omega

namespace Parked

theorem step_load (h : c.Parked i) : c.step = .done { c with pc := c.pc + 1 } := by
  have hfetch : c.fetch? = some c.a := by
    rw [fetch?, h.pc]
    exact h.load
  exact step_of_fetch? hfetch h.small

theorem step_jump (h : c.Parked i) : ({ c with pc := c.pc + 1 } : Computer).step = .done c := by
  generalize hp : ({ c with pc := c.pc + 1 } : Computer) = p
  have hfetch : p.fetch? = some i := by
    rw [← hp, fetch?, h.pc]
    exact h.jump
  have houtcome := outcome_step p
  generalize p.step = outcome at houtcome ⊢
  cases houtcome with
  | stray outside => exact absurd (hfetch.symm.trans outside) (by simp)
  | load fetched loads =>
    obtain rfl := Option.some.inj (hfetch.symm.trans fetched)
    exact absurd (loads.symm.trans h.computes) (by simp)
  | unreadable fetched computes reads outside =>
    obtain rfl := Option.some.inj (hfetch.symm.trans fetched)
    subst hp
    exact absurd (h.inside reads) (Nat.not_lt.mpr outside)
  | unwritable fetched computes reads stores outside =>
    obtain rfl := Option.some.inj (hfetch.symm.trans fetched)
    exact absurd (stores.symm.trans (storesMemory_of_dest h.nowhere)) (by simp)
  | raised fetched computes asks inside raises =>
    subst hp
    exact absurd (asks.2.2.symm.trans h.keyboard) (by simp)
  | compute fetched computes inside polled =>
    obtain rfl := Option.some.inj (hfetch.symm.trans fetched)
    subst hp
    rw [polled.eq_of_none h.keyboard, finish_of_jump h.always h.nowhere]
    simp only [h.halted, Bool.true_or, ← h.pc]
    rw [← h.halted]

/-- A parked computer goes back and forth between the two instructions of its loop. -/
theorem after?_eq (h : c.Parked i) (m : Nat) :
    c.after? m = some { c with pc := if m % 2 = 0 then c.pc else c.pc + 1 } := by
  induction m with
  | zero => rfl
  | succ m ih =>
    refine after?_succ.mpr ⟨_, ih, ?_⟩
    rcases Nat.mod_two_eq_zero_or_one m with heven | hodd
    · rw [if_pos heven, if_neg (by omega)]
      exact h.step_load
    · rw [if_neg (by omega), if_pos (by omega)]
      exact h.step_jump

theorem later (h : c.Parked i) (n : Nat) : (c.later n).Parked i :=
  ⟨h.halted, h.keyboard, h.pc, h.load, h.small, h.jump, h.computes, h.always, h.nowhere, h.inside⟩

end Parked

/-- A run that has stopped in a halt loop has hidden nothing, if there is no keyboard and instruction memory has at most 32768
words: all further steps succeed and change nothing but the program counter, which goes back and forth between two addresses. -/
theorem halt_loop_is_final {c c' : Computer} {limit : Int} (hrom : c.rom.size ≤ 32768) (hkeyboard : c.keyboard = none)
    (hrun : c.run limit = (c', .stopped)) (hhalted : c'.halted = true) (m : Nat) :
    c'.after? m = some { c' with pc := if m % 2 = 0 then c'.pc else c'.pc + 1 } := by
  obtain ⟨k, s, -, hs, hbefore, hends⟩ := runFor_ends (budget limit) c.reset rfl
  have hflag := halted_after rfl hs hbefore
  rw [show runFor (budget limit) c.reset = _ from hrun] at hends
  cases hends with
  | stopped ended =>
    -- the last step was taken from a computer with the same program, and without a keyboard either
    obtain ⟨j, p, rfl, hp, henters⟩ := hflag.mp hhalted
    obtain ⟨p', hp', hstep⟩ := after?_succ.mp hs
    obtain rfl := Option.some.inj (hp.symm.trans hp')
    obtain ⟨hsame, -, hnone⟩ := after?_frame hp
    obtain ⟨i, hparked⟩ := parked_of_step henters hstep (by rw [hsame]; exact hrom) (hnone hkeyboard)
    exact (hparked.later _).after?_eq m

/-- A program without a limit that stops in a halt loop whose jump reads memory. -/
theorem halt_loop_is_final_reading :
    let c : Computer := { rom := #[1, 0xFDC8, 2, 0xFC07], ram := Memory.blank 4 }
    ∃ c', c.run 0 = (c', .stopped) ∧ c'.halted = true ∧ c'.pc = 2 ∧
      ∀ m, c'.after? m = some { c' with pc := if m % 2 = 0 then 2 else 3 } := by
  intro c
  have hrun : c.run 0 = ((c.run 0).1, .stopped) := Prod.ext rfl (by decide)
  have hhalted : (c.run 0).1.halted = true := by decide
  have hpc : (c.run 0).1.pc = 2 := by decide
  refine ⟨_, hrun, hhalted, hpc, fun m => ?_⟩
  have hfinal := halt_loop_is_final (by decide) rfl hrun hhalted m
  rwa [hpc] at hfinal

end HackPlatform.Computer
