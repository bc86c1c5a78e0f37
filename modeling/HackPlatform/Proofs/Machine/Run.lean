import HackPlatform.Proofs.Machine.Step

/-!
# Runs are bounded iterations of steps

A run takes steps until the program is over, its budget is spent or a step fails. The program is over when the program counter has left
instruction memory or the last step has entered a halt loop (`OverAfter`). `runFor_ends` follows the recursion of the run: it takes
steps as long as the program is not over, and counts them. So a run is described by the number of its cycles alone (`BoundedRun`), and
a run that spent its budget can be taken up by another one (`runFor_add`).
-/

namespace HackPlatform.Computer

variable {c next s : Computer}

/-! ## Steps one after the other -/

/-- The computer after `k` steps, if none of them fails. -/
def after? : Nat → Computer → Option Computer
  | 0, c => some c
  | k + 1, c =>
    match c.step with
    | .done next => after? k next
    | .failed _ _ => none

theorem after?_of_step (h : c.step = .done next) (k : Nat) : c.after? (k + 1) = next.after? k := by
  rw [after?, h]

theorem after?_succ {k : Nat} : c.after? (k + 1) = some s ↔ ∃ p, c.after? k = some p ∧ p.step = .done s := by
  induction k generalizing c with
  | zero => cases hstep : c.step <;> simp [after?, hstep]
  | succ k ih =>
    cases hstep : c.step with
    | done next => rw [after?_of_step hstep, after?_of_step hstep, ih]
    | failed fault state => simp [after?, hstep]

/-- The next step jumps to the instruction before it whatever the result, and stores nothing; and that instruction loads its own
address. -/
def EntersHaltLoop (c : Computer) : Prop :=
  ∃ i, c.fetch? = some i ∧ i.isLoad = false ∧ i.jump = 7 ∧ i.dest = 0 ∧ (c.a.toNat : Int) = c.pc - 1 ∧
    c.rom[c.a.toNat]? = some c.a

theorem jumpsOn_of_jump_eq {i : Instruction} (h : i.jump = 7) (result : Word) : i.jumpsOn result = true := by
  rw [Instruction.jumpsOn, h]
  cases hnegative : result.isNegative <;> cases hzero : result == 0 <;> simp +decide [bne, hzero]

theorem finish_frame (p : Computer) (i : Instruction) (result : Word) : (p.finish i result).rom = p.rom ∧
    (p.finish i result).cycles = p.cycles ∧ (p.finish i result).keyboard = p.keyboard ∧
    (p.finish i result).halted = (p.halted || (i.jumpsOn result && p.closesHaltLoop i)) := ⟨rfl, rfl, rfl, rfl⟩

theorem closesHaltLoop_iff {i : Instruction} : c.closesHaltLoop i = true ↔
    i.jump = 7 ∧ i.dest = 0 ∧ (c.a.toNat : Int) = c.pc - 1 ∧ c.rom[c.a.toNat]? = some c.a := by
  simp [closesHaltLoop, and_assoc]

theorem entersHaltLoop_iff {i : Instruction} (fetched : c.fetch? = some i) :
    c.EntersHaltLoop ↔ i.isLoad = false ∧ c.closesHaltLoop i = true := by
  rw [closesHaltLoop_iff]
  constructor
  · rintro ⟨j, hj, hloop⟩
    obtain rfl := Option.some.inj (fetched.symm.trans hj)
    exact hloop
  · exact fun hloop => ⟨i, fetched, hloop⟩

/-- A step leaves the program and the count of cycles as they are, and notes exactly if it enters a halt loop. -/
theorem step_frame (h : c.step = .done next) : next.rom = c.rom ∧ next.cycles = c.cycles ∧
    (c.keyboard = none → next.keyboard = none) ∧ (next.halted = true ↔ c.halted = true ∨ c.EntersHaltLoop) := by
  have houtcome := outcome_step c
  rw [h] at houtcome
  cases houtcome with
  | load fetched loads => exact ⟨rfl, rfl, id, by simp [entersHaltLoop_iff fetched, loads]⟩
  | @compute i p fetched computes inside polled =>
    obtain ⟨hrom, hcycles, hkeyboard, hhalted⟩ := p.finish_frame i (Alu.output p.d (p.operand i) i.comp)
    have hsame := polled.frame.1
    refine ⟨hrom.trans (by rw [hsame]), hcycles.trans (by rw [hsame]), fun hnone => ?_, ?_⟩
    · rw [hkeyboard, polled.eq_of_none hnone]
      exact hnone
    · have hcloses : p.closesHaltLoop i = c.closesHaltLoop i := by rw [hsame]; rfl
      have hflag : p.halted = c.halted := by rw [hsame]
      have hjumps : c.closesHaltLoop i = true → i.jumpsOn (Alu.output p.d (p.operand i) i.comp) = true :=
        fun hloop => jumpsOn_of_jump_eq (closesHaltLoop_iff.mp hloop).1 _
      rw [hhalted, hcloses, hflag, entersHaltLoop_iff fetched, Bool.or_eq_true, Bool.and_eq_true, and_iff_right_of_imp hjumps,
        and_iff_right computes]

theorem after?_frame {k : Nat} (h : c.after? k = some s) :
    s.rom = c.rom ∧ s.cycles = c.cycles ∧ (c.keyboard = none → s.keyboard = none) := by
  induction k generalizing s with
  | zero =>
    obtain rfl := Option.some.inj h
    exact ⟨rfl, rfl, id⟩
  | succ k ih =>
    obtain ⟨p, hp, hstep⟩ := after?_succ.mp h
    obtain ⟨hrom, hcycles, hkeyboard⟩ := ih hp
    obtain ⟨hrom', hcycles', hkeyboard', -⟩ := step_frame hstep
    exact ⟨hrom'.trans hrom, hcycles'.trans hcycles, fun hnone => hkeyboard' (hkeyboard hnone)⟩

/-! ## Counting -/

/-- The computer with `n` more cycles on its count. -/
def later (n : Nat) (c : Computer) : Computer := { c with cycles := c.cycles + n }

/-- An outcome with `n` more cycles on its count. -/
def Step.later (n : Nat) : Step → Step
  | done next => done (next.later n)
  | failed fault state => failed fault (state.later n)

theorem execute_later (n : Nat) (c : Computer) (i : Instruction) (operand : Word) :
    (c.later n).execute i operand = (c.execute i operand).later n := by
  by_cases hinside : i.storesMemory = true → c.a.toNat < c.ram.size
  · rw [execute_of_inside hinside, execute_of_inside (c := c.later n) hinside]
    rfl
  · obtain ⟨hstores, hout⟩ := Classical.not_imp.mp hinside
    have houtside := Nat.not_lt.mp hout
    rw [execute_of_outside hstores houtside, execute_of_outside (c := c.later n) hstores houtside]
    rfl

theorem poll_later (n : Nat) (c : Computer) (addr : Nat) : (c.later n).poll addr = (c.poll addr).later n := by
  have hkeyboard : (c.later n).keyboard = c.keyboard := rfl
  unfold poll
  rw [hkeyboard]
  by_cases haddr : addr = keyboardAddress
  · rw [if_pos haddr, if_pos haddr]
    cases c.keyboard with
    | none => rfl
    | some k => cases hnext : k.next <;> simp only [hnext] <;> rfl
  · rw [if_neg haddr, if_neg haddr]
    rfl

theorem compute_later (n : Nat) (c : Computer) (i : Instruction) : (c.later n).compute i = (c.compute i).later n := by
  have hram : (c.later n).ram = c.ram := rfl
  have ha : (c.later n).a = c.a := rfl
  unfold compute
  cases hreads : i.readsMemory with
  | true =>
    simp only [if_true, ha, hram, poll_later]
    split
    · cases hpoll : c.poll c.a.toNat with
      | done p => exact execute_later n p i _
      | failed fault state => rfl
    · rfl
  | false => exact execute_later n c i c.a

theorem step_later (n : Nat) (c : Computer) : (c.later n).step = c.step.later n := by
  have hfetch : (c.later n).fetch? = c.fetch? := rfl
  unfold step
  rw [hfetch]
  cases c.fetch? with
  | none => rfl
  | some i =>
    cases hload : i.isLoad with
    | true => simp only [hload, if_true]; rfl
    | false => simp only [hload, Bool.false_eq_true, if_false, compute_later]

theorem runFor_later (budget n : Nat) (c : Computer) :
    runFor budget (c.later n) = ((runFor budget c).1.later n, (runFor budget c).2) := by
  induction budget generalizing c with
  | zero =>
    have hrom : (c.later n).inRom = c.inRom := rfl
    simp only [runFor, hrom]
    split <;> rfl
  | succ budget ih =>
    have hrom : (c.later n).inRom = c.inRom := rfl
    simp only [runFor, hrom, step_later]
    cases hin : c.inRom with
    | false => rfl
    | true =>
      cases hstep : c.step with
      | failed fault state => rfl
      | done next =>
        have htick : (next.later n).tick = next.tick.later n := by simp [later, tick, Nat.add_right_comm]
        have hhalted : (next.tick.later n).halted = next.tick.halted := rfl
        simp only [if_true, Step.later, htick, hhalted, ih]
        split <;> rfl

/-! ## The end of a run -/

/-- After `k` steps the program counter is outside of instruction memory, or the last of them has entered a halt loop. -/
def OverAfter (c : Computer) (k : Nat) : Prop :=
  ∃ s, c.after? k = some s ∧ (s.inRom = false ∨ ∃ j p, k = j + 1 ∧ c.after? j = some p ∧ p.EntersHaltLoop)

theorem overAfter_zero : c.OverAfter 0 ↔ c.inRom = false := by
  simp [OverAfter, after?]

theorem overAfter_of_step (hstep : c.step = .done next) (hgoing : ¬c.EntersHaltLoop) (k : Nat) :
    c.OverAfter (k + 1) ↔ next.OverAfter k := by
  have hlast : (∃ j p, k + 1 = j + 1 ∧ c.after? j = some p ∧ p.EntersHaltLoop) ↔
      ∃ j p, k = j + 1 ∧ next.after? j = some p ∧ p.EntersHaltLoop := by
    constructor
    · rintro ⟨j, p, hk, hp, henters⟩
      obtain rfl := Nat.succ.inj hk
      cases k with
      | zero =>
        obtain rfl := Option.some.inj hp
        exact absurd henters hgoing
      | succ k => exact ⟨k, p, rfl, (after?_of_step hstep k).symm.trans hp, henters⟩
    · rintro ⟨j, p, rfl, hp, henters⟩
      exact ⟨j + 1, p, rfl, (after?_of_step hstep j).trans hp, henters⟩
  simp only [OverAfter, after?_of_step hstep, hlast]

theorem halted_after {k : Nat} (hc : c.halted = false) (hs : c.after? k = some s) (hgoing : ∀ j < k, ¬c.OverAfter j) :
    s.halted = true ↔ ∃ j p, k = j + 1 ∧ c.after? j = some p ∧ p.EntersHaltLoop := by
  induction k generalizing s with
  | zero =>
    obtain rfl := Option.some.inj hs
    simp [hc]
  | succ k ih =>
    obtain ⟨p, hp, hstep⟩ := after?_succ.mp hs
    have hflag : p.halted = false := by
      rw [← Bool.not_eq_true, ih hp fun j hj => hgoing j (Nat.lt_succ_of_lt hj)]
      exact fun hlast => hgoing k (Nat.lt_succ_self k) ⟨p, hp, .inr hlast⟩
    rw [(step_frame hstep).2.2.2, hflag]
    constructor
    · rintro (hfalse | henters)
      · exact absurd hfalse (by simp)
      · exact ⟨k, p, rfl, hp, henters⟩
    · rintro ⟨j, p', hk, hp', henters⟩
      obtain rfl := Nat.succ.inj hk
      obtain rfl := Option.some.inj (hp.symm.trans hp')
      exact .inr henters

/-- How a run of at most `budget` steps ends when it has taken `k` of them, which led to `s`. -/
inductive Ends (c : Computer) (budget k : Nat) (s : Computer) : Computer × Ending → Prop where
  | stopped (ended : c.OverAfter k) : Ends c budget k s (s.later k, .stopped)
  | exhausted (spent : k = budget) (going : ¬c.OverAfter k) : Ends c budget k s (s.later k, .exhausted)
  | failed {fault : Fault} {state : Computer} (unspent : k < budget) (going : ¬c.OverAfter k)
      (fails : s.step = .failed fault state) : Ends c budget k s (state.later k, .failed fault)

theorem Ends.of_step {budget k : Nat} {r : Computer × Ending} (hstep : c.step = .done next) (hgoing : ¬c.EntersHaltLoop)
    (h : Ends next budget k s r) : Ends c (budget + 1) (k + 1) s (r.1.later 1, r.2) := by
  have hover := overAfter_of_step hstep hgoing k
  cases h with
  | stopped ended => exact .stopped (hover.mpr ended)
  | exhausted spent going => exact .exhausted (congrArg (· + 1) spent) (fun h => going (hover.mp h))
  | failed unspent going fails => exact .failed (Nat.succ_lt_succ unspent) (fun h => going (hover.mp h)) fails

/-- A run takes steps as long as the program is not over. -/
theorem runFor_ends (budget : Nat) (c : Computer) (hc : c.halted = false) : ∃ k s, k ≤ budget ∧ c.after? k = some s ∧
    (∀ j < k, ¬c.OverAfter j) ∧ Ends c budget k s (runFor budget c) := by
  induction budget generalizing c with
  | zero =>
    refine ⟨0, c, Nat.le_refl 0, rfl, by simp, ?_⟩
    rw [runFor]
    split
    · rename_i hrom
      exact .exhausted rfl (by simp [overAfter_zero, hrom])
    · rename_i hrom
      exact .stopped (by simpa [overAfter_zero] using hrom)
  | succ budget ih =>
    cases hrom : c.inRom with
    | false =>
      refine ⟨0, c, Nat.zero_le _, rfl, by simp, ?_⟩
      simp only [runFor, hrom, Bool.false_eq_true, if_false]
      exact .stopped (overAfter_zero.mpr hrom)
    | true =>
      have hgoing : ¬c.OverAfter 0 := by simp [overAfter_zero, hrom]
      simp only [runFor, hrom, if_true]
      cases hstep : c.step with
      | failed fault state => exact ⟨0, c, Nat.zero_le _, rfl, by simp, .failed (Nat.succ_pos _) hgoing hstep⟩
      | done next =>
        have htick : next.tick = next.later 1 := rfl
        have hflag : next.tick.halted = next.halted := rfl
        obtain ⟨-, -, -, hhalted⟩ := step_frame hstep
        rw [hc, or_iff_right (by simp)] at hhalted
        simp only [hflag]
        cases hnext : next.halted with
        | true =>
          have hafter : c.after? 1 = some next := (after?_of_step hstep 0).trans rfl
          refine ⟨1, next, Nat.succ_le_succ (Nat.zero_le _), hafter, ?_, ?_⟩
          · intro j hj
            obtain rfl := Nat.lt_one_iff.mp hj
            exact hgoing
          · exact .stopped ⟨next, hafter, .inr ⟨0, c, rfl, rfl, hhalted.mp hnext⟩⟩
        | false =>
          have henters : ¬c.EntersHaltLoop := fun h => absurd (hhalted.mpr h) (by simp [hnext])
          obtain ⟨k, s, hk, hs, hbefore, hends⟩ := ih next hnext
          refine ⟨k + 1, s, Nat.succ_le_succ hk, (after?_of_step hstep k).trans hs, ?_, ?_⟩
          · intro j hj
            cases j with
            | zero => exact hgoing
            | succ j =>
              rw [overAfter_of_step hstep henters]
              exact hbefore j (Nat.lt_of_succ_lt_succ hj)
          · have hrest := hends.of_step hstep henters
            rw [← runFor_later, ← htick] at hrest
            exact hrest

/-- A run that spent its budget can be taken up where it was left. -/
theorem runFor_add {a : Nat} (b : Nat) (h : (runFor a c).2 = .exhausted) : runFor (a + b) c = runFor b (runFor a c).1 := by
  induction a generalizing c with
  | zero =>
    cases hrom : c.inRom with
    | false => simp [runFor, hrom] at h
    | true => simp [runFor, hrom]
  | succ a ih =>
    rw [Nat.succ_add]
    cases hrom : c.inRom with
    | false => simp [runFor, hrom] at h
    | true =>
      simp only [runFor, hrom, if_true] at h ⊢
      cases hstep : c.step with
      | failed fault state => simp [hstep] at h
      | done next =>
        simp only [hstep] at h ⊢
        cases hnext : next.tick.halted with
        | true => simp [hnext] at h
        | false =>
          simp only [hnext, Bool.false_eq_true, if_false] at h ⊢
          exact ih h

/-! ## Limits -/

/-- What a run leaves and how it ends, by the number of cycles that it has counted: so many steps were taken from the start, none of
which failed, and the run ended at the first one after which the program was over, at its limit, or before a step that fails. -/
structure BoundedRun (start : Computer) (limit : Int) (left : Computer) (ending : Ending) : Prop where
  within : left.cycles ≤ limit
  reached : ∃ s, start.after? left.cycles = some s ∧ left = { s with cycles := left.cycles, keyboard := left.keyboard } ∧
    (∀ fault, ending = .failed fault → ∃ state, s.step = .failed fault state ∧ left.keyboard = state.keyboard) ∧
    ((∀ fault, ending ≠ .failed fault) → left.keyboard = s.keyboard)
  stopped_iff : ending = .stopped ↔ start.OverAfter left.cycles ∧ ∀ j < left.cycles, ¬start.OverAfter j
  exhausted_iff : ending = .exhausted ↔ left.cycles = limit ∧ ¬start.OverAfter left.cycles
  halted_iff : left.halted = true ↔ ∃ j p, left.cycles = j + 1 ∧ start.after? j = some p ∧ p.EntersHaltLoop

/-- The computer at the start of a run. -/
def reset (c : Computer) : Computer := { c with cycles := 0, halted := false }

theorem Ends.stopped_iff {budget k : Nat} {r : Computer × Ending} (h : Ends c budget k s r) :
    r.2 = .stopped ↔ c.OverAfter k := by
  cases h with
  | stopped ended => exact iff_of_true rfl ended
  | exhausted spent going => exact iff_of_false (by simp) going
  | failed unspent going fails => exact iff_of_false (by simp) going

theorem Ends.exhausted_iff {budget k : Nat} {r : Computer × Ending} (h : Ends c budget k s r) :
    r.2 = .exhausted ↔ k = budget ∧ ¬c.OverAfter k := by
  cases h with
  | stopped ended => exact iff_of_false (by simp) fun h => h.2 ended
  | exhausted spent going => exact iff_of_true rfl ⟨spent, going⟩
  | failed unspent going fails => exact iff_of_false (by simp) fun h => Nat.ne_of_lt unspent h.1

/-- A run leaves what its steps led to, but for its count and for a keyboard that has raised a fault. -/
theorem Ends.left_eq {budget k : Nat} {r : Computer × Ending} (h : Ends c budget k s r) :
    r.1 = { s with cycles := s.cycles + k, keyboard := r.1.keyboard } ∧
      (∀ fault, r.2 = .failed fault → ∃ state, s.step = .failed fault state ∧ r.1.keyboard = state.keyboard) ∧
      ((∀ fault, r.2 ≠ .failed fault) → r.1.keyboard = s.keyboard) := by
  cases h with
  | stopped ended => exact ⟨rfl, by simp, fun _ => rfl⟩
  | exhausted spent going => exact ⟨rfl, by simp, fun _ => rfl⟩
  | @failed fault state unspent going fails =>
    have hstate : state = { s with keyboard := state.keyboard } := by
      rcases state_of_failed fails with ⟨-, rfl⟩ | ⟨k, -, -, rfl⟩ <;> rfl
    refine ⟨?_, fun other hother => ?_, fun hnone => absurd rfl (hnone fault)⟩
    · rw [hstate]
      rfl
    · obtain rfl := Ending.failed.inj hother
      exact ⟨state, fails, rfl⟩

theorem boundedRun_run (c : Computer) {limit : Int} (hlimit : 0 < limit) :
    BoundedRun c.reset limit (c.run limit).1 (c.run limit).2 := by
  obtain ⟨n, rfl⟩ := Int.eq_ofNat_of_zero_le (Int.le_of_lt hlimit)
  have hrun : c.run n = runFor n c.reset := by
    rw [run, budget, if_pos hlimit]
    rfl
  obtain ⟨k, s, hk, hs, hbefore, hends⟩ := runFor_ends n c.reset rfl
  obtain ⟨hleft, hfailed, hquiet⟩ := hends.left_eq
  have hcount : s.cycles + k = k := by rw [(after?_frame hs).2.1]; exact Nat.zero_add k
  have hcycles : (runFor n c.reset).1.cycles = k := by rw [hleft]; exact hcount
  rw [hrun]
  refine ⟨?_, ?_, ?_, ?_, ?_⟩ <;> rw [hcycles]
  · exact Int.ofNat_le.mpr hk
  · exact ⟨s, hs, by rw [← hcount]; exact hleft, hfailed, hquiet⟩
  · exact hends.stopped_iff.trans (and_iff_left hbefore).symm
  · rw [Int.ofNat_inj]
    exact hends.exhausted_iff
  · rw [← halted_after rfl hs hbefore, hleft]

/-- A run with a limit takes steps from the computer as it is, its count and its flag cleared, until the program is over, the limit is
reached or a step fails. A run that stopped at its limit and another one from there are as good as one run with both limits. -/
theorem run_iterates_step (c : Computer) :
    (∀ limit : Int, 0 < limit → BoundedRun { c with cycles := 0, halted := false } limit (c.run limit).1 (c.run limit).2) ∧
      ∀ a b : Int, 0 < a → 0 < b → (c.run a).2 = .exhausted →
        ((c.run a).1.run b).2 = (c.run (a + b)).2 ∧
          ((c.run a).1.run b).1 = { (c.run (a + b)).1 with cycles := ((c.run a).1.run b).1.cycles } ∧
          (c.run a).1.cycles + ((c.run a).1.run b).1.cycles = (c.run (a + b)).1.cycles := by
  refine ⟨fun limit hlimit => boundedRun_run c hlimit, fun a b ha hb hexhausted => ?_⟩
  have hfirst := boundedRun_run c ha
  -- a run that is not over has not entered a halt loop
  have hflag : (c.run a).1.halted = false := by
    rw [← Bool.not_eq_true, hfirst.halted_iff]
    obtain ⟨s, hs, -⟩ := hfirst.reached
    exact fun hlast => (hfirst.exhausted_iff.mp hexhausted).2 ⟨s, hs, .inr hlast⟩
  generalize hleft : (c.run a).1 = left at hflag ⊢
  have hlater : left = left.reset.later left.cycles := by
    simp only [reset, later, Nat.zero_add, ← hflag]
  have hwhole : c.run (a + b) = runFor (budget b) left := by
    have hbudget : budget (a + b) = budget a + budget b := by
      rw [budget, budget, budget, if_pos ha, if_pos hb, if_pos (Int.add_pos ha hb), Int.toNat_add (Int.le_of_lt ha) (Int.le_of_lt hb)]
    rw [run, hbudget, runFor_add _ hexhausted, ← hleft]
    rfl
  have hrest : left.run b = runFor (budget b) left.reset := rfl
  rw [hwhole, hlater, runFor_later, ← hlater, hrest]
  exact ⟨rfl, rfl, Nat.add_comm _ _⟩

/-- A counter and a halt loop behind it: the first run is cut off in front of the loop, which the second one enters. -/
theorem run_iterates_step_halt_loop :
    let c : Computer := { rom := #[1, 0xFDC8, 2, 0xEA87], ram := Memory.blank 4, halted := true }
    (c.run 2).2 = .exhausted ∧ ((c.run 2).1.run 5).2 = .stopped ∧ (c.run 7).1.cycles = 4 ∧
      BoundedRun { c with cycles := 0, halted := false } 7 (c.run 7).1 .stopped ∧
      ((c.run 2).1.run 5).1 = { (c.run 7).1 with cycles := 2 } := by
  intro c
  have hexhausted : (c.run 2).2 = .exhausted := by decide
  have hstopped : (c.run 7).2 = .stopped := by decide
  obtain ⟨hbounded, hadd⟩ := run_iterates_step c
  obtain ⟨hending, hleft, hcycles⟩ := hadd 2 5 (by decide) (by decide) hexhausted
  have hrest : ((c.run 2).1.run 5).1.cycles = 2 := by decide
  refine ⟨hexhausted, hending.trans hstopped, hcycles.symm.trans (by decide), ?_, hrest ▸ hleft⟩
  rw [← hstopped]
  exact hbounded 7 (by decide)

end HackPlatform.Computer
