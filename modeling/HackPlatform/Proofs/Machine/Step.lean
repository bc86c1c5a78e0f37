import HackPlatform.Machine.Execution

/-!
# What a step can do

`Outcome` lists what one step of the computer can come to, one rule a case, and every step comes to one of these (`outcome_step`): what
is said of steps below, and of runs elsewhere, is said by cases on the rules. A step reports an error of its own in two cases, a
program counter outside of instruction memory and an operand or a result outside of data memory, and the computer is then as it was;
what a keyboard raises is another matter, since the keyboard has been asked.

`strictStep` is a step on memories that refuse to be looked at, or stored in, outside of their bounds. It never comes to such a
refusal (`strictStep_eq_step`), so a step stays inside of both memories.
-/

namespace HackPlatform

/-- Stores a word, if the address can be addressed. -/
def Memory.set? (m : Memory) (addr : Nat) (w : Word) : Option Memory :=
  if addr < m.size then some (m.write addr w) else none

theorem Memory.set?_of_lt {m : Memory} {addr : Nat} (h : addr < m.size) (w : Word) : m.set? addr w = some (m.write addr w) :=
  if_pos h

/-- What a keyboard raises in place of a key code. -/
def KeyReply.fault? : KeyReply → Option Computer.Fault
  | key _ => none
  | failure message => some (.keyboardFailure message)
  | breakdown message => some (.keyboardBreakdown message)

namespace Computer

/-- Was the fault raised by the keyboard, and not reported by the step itself? -/
def Fault.isRaised : Fault → Bool
  | keyboardFailure _ | keyboardBreakdown _ => true
  | _ => false

theorem Fault.isRaised_of_fault? {reply : KeyReply} {fault : Fault} (h : reply.fault? = some fault) : fault.isRaised = true := by
  cases reply with
  | key code => exact absurd h (by simp [KeyReply.fault?])
  | failure message =>
    obtain rfl := Option.some.inj h
    rfl
  | breakdown message =>
    obtain rfl := Option.some.inj h
    rfl

/-! ## Outcomes -/

/-- Does the instruction ask the keyboard? -/
def Asks (c : Computer) (i : Instruction) (k : Keyboard) : Prop :=
  i.readsMemory = true ∧ c.a.toNat = keyboardAddress ∧ c.keyboard = some k

/-- The computer `p` is `c` with its keyboard register up to date, as far as the instruction looks at it. -/
inductive Polled (c : Computer) (i : Instruction) : Computer → Prop where
  | same : Polled c i c
  | key {k : Keyboard} {code : Word} (asks : c.Asks i k) (pressed : k.next = .key code) : Polled c i (c.storeKey k code)

/-- The second operand of a computation. -/
def operand (c : Computer) (i : Instruction) : Word := if i.readsMemory then c.ram.read c.a.toNat else c.a

/-- What a step can come to. -/
inductive Outcome (c : Computer) : Step → Prop where
  | stray (outside : c.fetch? = none) : Outcome c (.failed (.pcOutOfRom c.pc) c)
  | load {i : Instruction} (fetched : c.fetch? = some i) (loads : i.isLoad = true) :
      Outcome c (.done { c with a := i.value, pc := c.pc + 1 })
  | unreadable {i : Instruction} (fetched : c.fetch? = some i) (computes : i.isLoad = false) (reads : i.readsMemory = true)
      (outside : c.ram.size ≤ c.a.toNat) : Outcome c (.failed (.readOutOfRange c.pc c.a.toNat) c)
  | unwritable {i : Instruction} (fetched : c.fetch? = some i) (computes : i.isLoad = false) (reads : i.readsMemory = false)
      (stores : i.storesMemory = true) (outside : c.ram.size ≤ c.a.toNat) :
      Outcome c (.failed (.writeOutOfRange c.pc c.a.toNat) c)
  | raised {i : Instruction} {k : Keyboard} {fault : Fault} (fetched : c.fetch? = some i) (computes : i.isLoad = false)
      (asks : c.Asks i k) (inside : c.a.toNat < c.ram.size) (raises : k.next.fault? = some fault) :
      Outcome c (.failed fault { c with keyboard := some k.advance })
  | compute {i : Instruction} {p : Computer} (fetched : c.fetch? = some i) (computes : i.isLoad = false)
      (inside : (i.readsMemory || i.storesMemory) = true → c.a.toNat < c.ram.size) (polled : c.Polled i p) :
      Outcome c (.done (p.finish i (Alu.output p.d (p.operand i) i.comp)))

variable {c : Computer}

theorem execute_of_inside {i : Instruction} (h : i.storesMemory = true → c.a.toNat < c.ram.size) (operand : Word) :
    c.execute i operand = .done (c.finish i (Alu.output c.d operand i.comp)) := by
  have hbound : ¬(i.storesMemory && decide (c.ram.size ≤ c.a.toNat)) = true := by
    rw [Bool.and_eq_true, decide_eq_true_eq]
    exact fun hout => Nat.not_lt.mpr hout.2 (h hout.1)
  rw [execute, if_neg hbound]

theorem execute_of_outside {i : Instruction} (hstores : i.storesMemory = true) (h : c.ram.size ≤ c.a.toNat) (operand : Word) :
    c.execute i operand = .failed (.writeOutOfRange c.pc c.a.toNat) c := by
  rw [execute, if_pos (by simp [hstores, h])]

theorem poll_cases {i : Instruction} (hreads : i.readsMemory = true) :
    (∃ p, c.poll c.a.toNat = .done p ∧ c.Polled i p) ∨
      ∃ k fault, c.Asks i k ∧ k.next.fault? = some fault ∧
        c.poll c.a.toNat = .failed fault { c with keyboard := some k.advance } := by
  unfold poll
  by_cases haddr : c.a.toNat = keyboardAddress
  · rw [if_pos haddr]
    cases hkeyboard : c.keyboard with
    | none => exact .inl ⟨c, rfl, .same⟩
    | some k =>
      have hasks : c.Asks i k := ⟨hreads, haddr, hkeyboard⟩
      cases hnext : k.next with
      | key code => exact .inl ⟨_, by simp only [hnext], .key hasks hnext⟩
      | failure message => exact .inr ⟨k, .keyboardFailure message, hasks, by rw [hnext]; rfl, by simp only [hnext]⟩
      | breakdown message => exact .inr ⟨k, .keyboardBreakdown message, hasks, by rw [hnext]; rfl, by simp only [hnext]⟩
  · rw [if_neg haddr]
    exact .inl ⟨c, rfl, .same⟩

theorem Polled.frame {i : Instruction} {p : Computer} (h : c.Polled i p) :
    p = { c with ram := p.ram, keyboard := p.keyboard } ∧ p.ram.size = c.ram.size := by
  cases h with
  | same => exact ⟨rfl, rfl⟩
  | key asks pressed => exact ⟨rfl, rfl⟩

theorem Polled.a_eq {i : Instruction} {p : Computer} (h : c.Polled i p) : p.a = c.a := by rw [h.frame.1]

theorem Polled.eq_of_none {i : Instruction} {p : Computer} (h : c.Polled i p) (hkeyboard : c.keyboard = none) : p = c := by
  cases h with
  | same => rfl
  | key asks pressed => exact absurd (asks.2.2.symm.trans hkeyboard) (by simp)

/-- Every step comes to one of the outcomes. -/
theorem outcome_step (c : Computer) : Outcome c c.step := by
  unfold step
  cases hfetch : c.fetch? with
  | none => exact .stray hfetch
  | some i =>
    cases hload : i.isLoad with
    | true =>
      simp only [hload, if_true]
      exact .load hfetch hload
    | false =>
      simp only [hload, Bool.false_eq_true, if_false, compute]
      cases hreads : i.readsMemory with
      | true =>
        by_cases hinside : c.a.toNat < c.ram.size
        · simp only [if_true, if_pos hinside]
          rcases poll_cases hreads with ⟨p, hpoll, hpolled⟩ | ⟨k, fault, hasks, hraises, hpoll⟩
          · have hstores : i.storesMemory = true → p.a.toNat < p.ram.size := by
              rw [hpolled.a_eq, hpolled.frame.2]
              exact fun _ => hinside
            have hdone := Outcome.compute hfetch hload (fun _ => hinside) hpolled
            rw [operand, hreads, if_pos rfl, hpolled.a_eq] at hdone
            simp only [hpoll, execute_of_inside hstores]
            exact hdone
          · simp only [hpoll]
            exact .raised hfetch hload hasks hinside hraises
        · simp only [if_true, if_neg hinside]
          exact .unreadable hfetch hload hreads (Nat.not_lt.mp hinside)
      | false =>
        simp only [Bool.false_eq_true, if_false]
        by_cases hinside : i.storesMemory = true → c.a.toNat < c.ram.size
        · have hdone := Outcome.compute hfetch hload (by simpa [hreads] using hinside) .same
          rw [operand, hreads, if_neg (by simp)] at hdone
          rw [execute_of_inside hinside]
          exact hdone
        · obtain ⟨hstores, hout⟩ := Classical.not_imp.mp hinside
          rw [execute_of_outside hstores (Nat.not_lt.mp hout)]
          exact .unwritable hfetch hload hreads hstores (Nat.not_lt.mp hout)

/-! ## Strict steps -/

/-- Brings the keyboard register up to date. -/
def strictPoll (c : Computer) (addr : Nat) : Option Step :=
  if addr = keyboardAddress then
    match c.keyboard with
    | none => some (.done c)
    | some k =>
      match k.next with
      | .key code => (c.ram.set? keyboardAddress code).map fun ram => .done { c with ram, keyboard := some k.advance }
      | .failure message => some (.failed (.keyboardFailure message) { c with keyboard := some k.advance })
      | .breakdown message => some (.failed (.keyboardBreakdown message) { c with keyboard := some k.advance })
  else some (.done c)

/-- Data memory with the result in it. -/
def strictStore (c : Computer) (i : Instruction) (result : Word) : Option Memory :=
  if i.storesMemory then c.ram.set? c.a.toNat result else some c.ram

/-- Does the instruction enter a halt loop? The instruction that the loop would start with is looked at only if all else fits. -/
def strictParks (c : Computer) (i : Instruction) (result : Word) : Option Bool :=
  if i.jumpsOn result && i.jump == 7 && i.dest == 0 && (c.a.toNat : Int) == c.pc - 1 then (c.rom[c.a.toNat]?).map (· == c.a)
  else some false

/-- Stores the result and moves the program counter. -/
def strictFinish (c : Computer) (i : Instruction) (result : Word) : Option Computer := do
  let ram ← c.strictStore i result
  let parks ← c.strictParks i result
  some { c with
    pc := if i.jumpsOn result then c.a.toNat else c.pc + 1
    a := if i.storesA then result else c.a
    d := if i.storesD then result else c.d
    ram
    halted := c.halted || parks }

def strictExecute (c : Computer) (i : Instruction) (operand : Word) : Option Step :=
  if i.storesMemory && c.ram.size ≤ c.a.toNat then some (.failed (.writeOutOfRange c.pc c.a.toNat) c)
  else (c.strictFinish i (Alu.output c.d operand i.comp)).map .done

def strictCompute (c : Computer) (i : Instruction) : Option Step :=
  if i.readsMemory then
    if c.a.toNat < c.ram.size then
      (c.strictPoll c.a.toNat).bind fun
        | .failed fault state => some (.failed fault state)
        | .done p => (p.ram.get? c.a.toNat).bind (p.strictExecute i)
    else some (.failed (.readOutOfRange c.pc c.a.toNat) c)
  else c.strictExecute i c.a

/-- A step on memories that refuse to be looked at, or stored in, outside of their bounds; `none` is such a refusal. -/
def strictStep (c : Computer) : Option Step :=
  if c.inRom then
    (c.rom[c.pc.toNat]?).bind fun i =>
      if i.isLoad then some (.done { c with a := i.value, pc := c.pc + 1 }) else c.strictCompute i
  else some (.failed (.pcOutOfRom c.pc) c)

theorem fetch?_eq_none_iff : c.fetch? = none ↔ c.pc < 0 ∨ c.rom.size ≤ c.pc := by
  unfold fetch?
  split
  · rename_i n hpc
    rw [hpc, Array.getElem?_eq_none_iff, Int.ofNat_eq_natCast]
    omega
  · rename_i n hpc
    rw [hpc]
    exact iff_of_true rfl (.inl (Int.negSucc_lt_zero n))

theorem inRom_iff : c.inRom = true ↔ 0 ≤ c.pc ∧ c.pc < c.rom.size := by
  rw [inRom, Bool.and_eq_true, decide_eq_true_eq, decide_eq_true_eq]

theorem fetch?_of_inRom (h : c.inRom = true) : c.fetch? = c.rom[c.pc.toNat]? := by
  obtain ⟨n, hn⟩ := Int.eq_ofNat_of_zero_le (inRom_iff.mp h).1
  rw [fetch?, hn]
  rfl

theorem isSome_fetch? (c : Computer) : c.fetch?.isSome = c.inRom := by
  rw [Bool.eq_iff_iff, inRom_iff, Option.isSome_iff_ne_none, ne_eq, fetch?_eq_none_iff]
  omega

theorem strictPoll_eq_poll {addr : Nat} (h : addr < c.ram.size) : c.strictPoll addr = some (c.poll addr) := by
  unfold strictPoll poll
  by_cases haddr : addr = keyboardAddress
  · rw [if_pos haddr, if_pos haddr]
    cases hkeyboard : c.keyboard with
    | none => rfl
    | some k =>
      cases hnext : k.next with
      | key code =>
        simp only [hnext, Memory.set?_of_lt (haddr ▸ h), Option.map_some]
        rfl
      | failure message => simp only [hnext]
      | breakdown message => simp only [hnext]
  · rw [if_neg haddr, if_neg haddr]

/-- The jump of a halt loop stands behind an instruction, since the program counter is in instruction memory. -/
theorem strictFinish_eq_finish {i : Instruction} (hrom : c.inRom = true)
    (hstores : i.storesMemory = true → c.a.toNat < c.ram.size) (result : Word) :
    c.strictFinish i result = some (c.finish i result) := by
  have hram : c.strictStore i result = some (if i.storesMemory then c.ram.write c.a.toNat result else c.ram) := by
    unfold strictStore
    cases hm : i.storesMemory with
    | true => exact Memory.set?_of_lt (hstores hm) result
    | false => rfl
  have hparks : c.strictParks i result = some (i.jumpsOn result && c.closesHaltLoop i) := by
    unfold strictParks closesHaltLoop
    by_cases hbefore : (c.a.toNat : Int) = c.pc - 1
    · have hlt : c.a.toNat < c.rom.size := by
        have := (inRom_iff.mp hrom).2
        omega
      rw [Array.getElem?_eq_getElem hlt]
      cases i.jumpsOn result <;> cases i.jump == 7 <;> cases i.dest == 0 <;> simp [hbefore]
    · simp [hbefore]
  rw [strictFinish, hram, hparks]
  rfl

theorem strictExecute_eq_execute {i : Instruction} (hrom : c.inRom = true) (operand : Word) :
    c.strictExecute i operand = some (c.execute i operand) := by
  unfold strictExecute
  split
  · rename_i hout
    rw [Bool.and_eq_true, decide_eq_true_eq] at hout
    rw [execute_of_outside hout.1 hout.2]
  · rename_i hin
    rw [Bool.and_eq_true, decide_eq_true_eq, not_and, Nat.not_le] at hin
    rw [execute_of_inside hin, strictFinish_eq_finish hrom hin]
    rfl

theorem strictCompute_eq_compute {i : Instruction} (hrom : c.inRom = true) :
    c.strictCompute i = some (c.compute i) := by
  unfold strictCompute compute
  cases hreads : i.readsMemory with
  | true =>
    by_cases hinside : c.a.toNat < c.ram.size
    · simp only [if_true, if_pos hinside, strictPoll_eq_poll hinside, Option.bind_some]
      rcases poll_cases hreads with ⟨p, hpoll, hpolled⟩ | ⟨k, fault, -, -, hpoll⟩
      · obtain ⟨hsame, hsize⟩ := hpolled.frame
        have hrom' : p.inRom = true := by
          rw [hsame]
          exact hrom
        simp only [hpoll, Memory.get?, hsize, if_pos hinside, Option.bind_some, strictExecute_eq_execute hrom']
      · simp only [hpoll]
    · simp only [if_true, if_neg hinside]
  | false => exact strictExecute_eq_execute hrom _

/-- A step stays inside of both memories. -/
theorem strictStep_eq_step (c : Computer) : c.strictStep = some c.step := by
  unfold strictStep step
  cases hrom : c.inRom with
  | true =>
    obtain ⟨i, hfetch⟩ := Option.isSome_iff_exists.mp ((isSome_fetch? c).trans hrom)
    rw [if_pos rfl, ← fetch?_of_inRom hrom, hfetch, Option.bind_some, strictCompute_eq_compute hrom]
    cases hload : i.isLoad <;> simp [hload]
  | false =>
    have hfetch : c.fetch? = none := Option.isNone_iff_eq_none.mp (by simp [← Option.not_isSome, isSome_fetch?, hrom])
    simp [hfetch]

/-! ## Errors -/

/-- The instruction at the program counter computes on a cell of memory that does not exist. -/
def OutOfReach (c : Computer) : Prop :=
  ∃ i, c.fetch? = some i ∧ i.isLoad = false ∧ (i.readsMemory = true ∨ i.storesMemory = true) ∧ c.ram.size ≤ c.a.toNat

theorem reports_iff {fault : Fault} {state : Computer} (hstep : c.step = .failed fault state) :
    fault.isRaised = false ↔ (c.fetch? = none ∨ c.OutOfReach) := by
  have houtcome := outcome_step c
  rw [hstep] at houtcome
  cases houtcome with
  | stray outside => exact iff_of_true rfl (.inl outside)
  | unreadable fetched computes reads outside => exact iff_of_true rfl (.inr ⟨_, fetched, computes, .inl reads, outside⟩)
  | unwritable fetched computes reads stores outside =>
    exact iff_of_true rfl (.inr ⟨_, fetched, computes, .inr stores, outside⟩)
  | raised fetched computes asks inside raises =>
    refine iff_of_false (by simp [Fault.isRaised_of_fault? raises]) ?_
    rintro (hnone | ⟨i, -, -, -, outside⟩)
    · exact absurd (fetched.symm.trans hnone) (by simp)
    · exact Nat.not_lt.mpr outside inside

theorem exists_failed (h : c.fetch? = none ∨ c.OutOfReach) : ∃ fault state, c.step = .failed fault state := by
  have houtcome := outcome_step c
  generalize c.step = outcome at houtcome ⊢
  cases houtcome with
  | load fetched loads =>
    rcases h with hnone | ⟨i, hi, computes, -⟩
    · exact absurd (fetched.symm.trans hnone) (by simp)
    · obtain rfl := Option.some.inj (fetched.symm.trans hi)
      exact absurd (loads.symm.trans computes) (by simp)
  | compute fetched computes inside polled =>
    rcases h with hnone | ⟨i, hi, -, htouches, outside⟩
    · exact absurd (fetched.symm.trans hnone) (by simp)
    · obtain rfl := Option.some.inj (fetched.symm.trans hi)
      exact absurd (inside (by simpa using htouches)) (Nat.not_lt.mpr outside)
  | _ => exact ⟨_, _, rfl⟩

theorem state_of_failed {fault : Fault} {state : Computer} (hstep : c.step = .failed fault state) :
    fault.isRaised = false ∧ state = c ∨
      ∃ k, c.keyboard = some k ∧ k.next.fault? = some fault ∧ state = { c with keyboard := some k.advance } := by
  have houtcome := outcome_step c
  rw [hstep] at houtcome
  cases houtcome with
  | raised fetched computes asks inside raises => exact .inr ⟨_, asks.2.2, raises, rfl⟩
  | _ => exact .inl ⟨rfl, rfl⟩

/-- A step stays inside of both memories. It reports an error exactly if the program counter is outside of instruction memory, or the
instruction computes on a cell of data memory and A points outside of it; nothing has changed then, and the keyboard has not been
asked. All else that can go wrong was raised by the keyboard. -/
theorem failing_step_changes_nothing (c : Computer) :
    c.strictStep = some c.step ∧
      ((∃ fault state, c.step = .failed fault state ∧ fault.isRaised = false) ↔
        (c.pc < 0 ∨ c.rom.size ≤ c.pc) ∨ ∃ i, c.fetch? = some i ∧ i.isLoad = false ∧
          (i.readsMemory = true ∨ i.storesMemory = true) ∧ c.ram.size ≤ c.a.toNat) ∧
      (∀ fault state, c.step = .failed fault state → fault.isRaised = false → state = c) ∧
      ∀ fault state, c.step = .failed fault state → fault.isRaised = true →
        ∃ k, c.keyboard = some k ∧ k.next.fault? = some fault ∧ state = { c with keyboard := some k.advance } := by
  refine ⟨strictStep_eq_step c, ?_, fun fault state hstep hreported => ?_, fun fault state hstep hraised => ?_⟩
  · rw [← fetch?_eq_none_iff]
    constructor
    · rintro ⟨fault, state, hstep, hreported⟩
      exact (reports_iff hstep).mp hreported
    · intro h
      obtain ⟨fault, state, hstep⟩ := exists_failed h
      exact ⟨fault, state, hstep, (reports_iff hstep).mpr h⟩
  · rcases state_of_failed hstep with ⟨-, hstate⟩ | ⟨k, -, hraises, -⟩
    · exact hstate
    · exact absurd (Fault.isRaised_of_fault? hraises) (by simp [hreported])
  · rcases state_of_failed hstep with ⟨hreported, -⟩ | hasked
    · exact absurd hraised (by simp [hreported])
    · exact hasked

/-- A word that is no proper instruction and computes on memory, with A far outside of the hundred words that there are: an error, and
the key that was waiting is still there. -/
theorem failing_step_changes_nothing_key :
    let c : Computer :=
      { a := 0xFFFF, rom := #[0x9DD8], ram := Memory.blank 100, keyboard := some (.ofArray #[.key 65]) }
    c.strictStep = some c.step ∧ c.fetch? = some 0x9DD8 ∧ ∃ fault, c.step = .failed fault c ∧ fault.isRaised = false := by
  intro c
  obtain ⟨hstrict, hreports, hsame, -⟩ := failing_step_changes_nothing c
  obtain ⟨fault, state, hstep, hreported⟩ :=
    hreports.mpr (.inr ⟨0x9DD8, rfl, by decide, .inl (by decide), by decide⟩)
  have hstate : state = c := hsame fault state hstep hreported
  exact ⟨hstrict, rfl, fault, hstate ▸ hstep, hreported⟩

end Computer

end HackPlatform
