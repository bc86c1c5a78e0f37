import HackPlatform.Proofs.Machine.Installed

/-!
# Compute lines do what they say

The text of a compute line has a meaning of its own: its expression is worth what the letters, digits and signs in it say
(`Expression.value?`), the letters in front of `=` name the places where the value goes, and the word behind `;` is a test of the
signed value (`conditionHolds`). `ComputeLine.Executed` collects what the line then does to a computer. The assembler and the
computer share no table: the one turns names into fields of an instruction word, the other one turns these fields into control
bits, stores and jumps. Their composition is the meaning of the text (`step_of_computeLine`), for every alias of a computation and
every order of the letters, with any size of memory and any keyboard.
-/

namespace HackPlatform.Assembly

/-! ## The meaning of a text -/

/-- A line that computes, in its parts. None of them holds a byte that sets off the parts of a line. -/
structure ComputeLine where
  /-- The letters in front of `=`; there are none if nothing is stored. -/
  target : Bytes
  expression : Bytes
  /-- The word behind `;`; it is empty if there is no jump. -/
  condition : Bytes
  inner : (target ++ expression ++ condition).all isInner = true

namespace Expression

/-- What a letter or a digit is worth. -/
def operand? (d a m : Word) : UInt8 → Option Word
  | 48 => some 0
  | 49 => some 1
  | 65 => some a
  | 68 => some d
  | 77 => some m
  | _ => none

/-- What an expression is worth: an operand, one with a sign in front of it, or two with a sign between them. -/
def value? (d a m : Word) : Bytes → Option Word
  | [x] => operand? d a m x
  | [33, x] => (operand? d a m x).map fun x => ~~~x
  | [45, x] => (operand? d a m x).map fun x => -x
  | [x, 43, y] => (operand? d a m x).bind fun x => (operand? d a m y).map fun y => x + y
  | [x, 45, y] => (operand? d a m x).bind fun x => (operand? d a m y).map fun y => x - y
  | [x, 38, y] => (operand? d a m x).bind fun x => (operand? d a m y).map fun y => x &&& y
  | [x, 124, y] => (operand? d a m x).bind fun x => (operand? d a m y).map fun y => x ||| y
  | _ => none

end Expression

/-- The words for jumps, and the tests that they stand for. -/
def conditions : List (String × (Int → Bool)) :=
  [("JGT", fun n => 0 < n), ("JEQ", fun n => n = 0), ("JGE", fun n => 0 ≤ n), ("JLT", fun n => n < 0),
    ("JNE", fun n => n ≠ 0), ("JLE", fun n => n ≤ 0), ("JMP", fun _ => true)]

/-- Does a number pass the test that a word stands for? -/
def conditionHolds (condition : Bytes) (n : Int) : Bool :=
  conditions.any fun (word, test) => condition = ascii word && test n

namespace ComputeLine

def text (l : ComputeLine) : Bytes :=
  (if l.target = [] then [] else l.target ++ [61]) ++ l.expression ++ (if l.condition = [] then [] else 59 :: l.condition)

/-- The keyboard that the line asks: one that is bound, if the line reads `M` and A holds the address of its register. -/
def asked? (l : ComputeLine) (c : Computer) : Option Keyboard :=
  if 77 ∈ l.expression ∧ c.a.toNat = Computer.keyboardAddress then c.keyboard else none

/-- What the line finds in `M`: the answer of the keyboard that it asks, and otherwise the cell that A points to. There is nothing to
be found if the keyboard fails. -/
def memory? (l : ComputeLine) (c : Computer) : Option Word :=
  match l.asked? c with
  | none => some (c.ram.read c.a.toNat)
  | some k =>
    match k.next with
    | .key code => some code
    | _ => none

/-- The state `c'` comes from `c` by what the line says, where `m` is what it finds in `M` and `result` what its expression is
worth. -/
structure Executed (l : ComputeLine) (m result : Word) (c c' : Computer) : Prop where
  pc : c'.pc = if conditionHolds l.condition result.signed then (c.a.toNat : Int) else c.pc + 1
  a : c'.a = if 65 ∈ l.target then result else c.a
  d : c'.d = if 68 ∈ l.target then result else c.d
  cells : ∀ i, c'.ram.read i =
    if 77 ∈ l.target ∧ i = c.a.toNat then result
    else if (l.asked? c).isSome ∧ i = Computer.keyboardAddress then m
    else c.ram.read i
  size : c'.ram.size = c.ram.size
  keyboard : c'.keyboard = match l.asked? c with
    | some k => some k.advance
    | none => c.keyboard
  rom : c'.rom = c.rom
  cycles : c'.cycles = c.cycles
  /-- Only the jump of a halt loop parks the program. -/
  halted : c'.halted = true ↔ c.halted = true ∨
    (l.target = [] ∧ l.condition = ascii "JMP" ∧ (c.a.toNat : Int) = c.pc - 1 ∧ c.rom[c.a.toNat]? = some c.a)

end ComputeLine

/-! ## Names and their meaning -/

theorem Expression.value?_of_isNamed {text : Bytes} {comp : Comp} (h : comp.isNamed text = true) (d a m : Word) :
    value? d a m text = some (comp.value d a m) := by
  rcases Comp.isNamed_iff.mp h with rfl | ⟨word, hword, rfl⟩
  · cases comp <;> rfl
  · -- an alias has its operands swapped
    cases comp with
    | incD | incA | incM | dPlusA | dPlusM =>
      obtain rfl := Option.some.inj hword
      exact congrArg some (UInt16.add_comm _ _)
    | dAndA | dAndM =>
      obtain rfl := Option.some.inj hword
      exact congrArg some (UInt16.and_comm _ _)
    | dOrA | dOrM =>
      obtain rfl := Option.some.inj hword
      exact congrArg some (UInt16.or_comm _ _)
    | _ => exact absurd hword (by simp [Comp.swapped?])

theorem Expression.mem_iff_readsM {text : Bytes} {comp : Comp} (h : comp.isNamed text = true) :
    77 ∈ text ↔ comp.readsM = true := by
  rcases Comp.isNamed_iff.mp h with rfl | ⟨word, hword, rfl⟩
  · cases comp <;> decide
  · cases comp <;> simp only [Comp.swapped?, reduceCtorEq, Option.some.injEq] at hword <;> subst hword <;> decide

theorem conditionHolds_name (jump : Jump) (w : Word) : conditionHolds jump.name w.signed = jump.holds w := by
  cases jump <;> simp +decide [conditionHolds, conditions, Jump.holds]

namespace ComputeLine

/-- The registers that the line names. -/
def dest (l : ComputeLine) : Dest := ⟨decide (65 ∈ l.target), decide (68 ∈ l.target), decide (77 ∈ l.target)⟩

/-- The parts of the line are letters of registers, a name of the computation, and the word for the jump. -/
structure Names (l : ComputeLine) (comp : Comp) (jump : Jump) : Prop where
  letters : ∀ b ∈ l.target, b = 65 ∨ b = 68 ∨ b = 77
  expression : comp.isNamed l.expression = true
  condition : l.condition = jump.name

theorem not_mem {l : ComputeLine} {b : UInt8} (hb : isInner b = false) :
    b ∉ l.target ∧ b ∉ l.expression ∧ b ∉ l.condition := by
  have h := not_mem_of_all_inner l.inner hb
  simpa only [List.mem_append, not_or, and_assoc] using h

theorem readOperation_eq_ok {l : ComputeLine} {dest : Dest} {s : Statement}
    (h : Statement.readOperation dest (l.expression ++ if l.condition = [] then [] else 59 :: l.condition) = .ok s) :
    ∃ comp jump, s = .compute dest comp jump ∧ comp.isNamed l.expression = true ∧ l.condition = jump.name := by
  have hsemicolon : 59 ∉ l.expression := (not_mem (by decide)).2.1
  unfold Statement.readOperation at h
  by_cases hnone : l.condition = []
  · rw [if_pos hnone, List.append_nil, splitAtFirst?_of_not_mem hsemicolon] at h
    cases hcomp : Comp.ofName? l.expression with
    | none => simp [hcomp] at h
    | some comp =>
      simp only [hcomp, Except.ok.injEq] at h
      exact ⟨comp, .never, h.symm, Comp.ofName?_eq_some_iff.mp hcomp, hnone⟩
  · rw [if_neg hnone, splitAtFirst?_append_cons hsemicolon] at h
    cases hjump : Jump.ofName? l.condition with
    | none => simp [hjump] at h
    | some jump =>
      cases hcomp : Comp.ofName? l.expression with
      | none => simp [hjump, hcomp] at h
      | some comp =>
        simp only [hjump, hcomp, Except.ok.injEq] at h
        exact ⟨comp, jump, h.symm, Comp.ofName?_eq_some_iff.mp hcomp, (Jump.ofName?_eq_some_iff.mp hjump).2⟩

theorem read_text (l : ComputeLine) : Statement.read l.text = Statement.readCompute l.text := by
  have hfirst : ∀ b, isInner b = false → b ≠ 61 → b ≠ 59 → l.text.head? ≠ some b := by
    intro b hb h61 h59 hhead
    obtain ⟨htarget, hexpression, hcondition⟩ := l.not_mem hb
    have hmem := List.mem_of_head? hhead
    unfold text at hmem
    split at hmem <;> split at hmem <;> simp_all
  unfold Statement.read
  split
  · rename_i h
    exact absurd (by rw [h]; rfl) (hfirst 40 (by decide) (by decide) (by decide))
  · rename_i h
    exact absurd (by rw [h]; rfl) (hfirst 64 (by decide) (by decide) (by decide))
  · rfl

theorem names_of_read {l : ComputeLine} {s : Statement} (h : Statement.read l.text = .ok s) :
    ∃ comp jump, s = .compute l.dest comp jump ∧ l.Names comp jump := by
  have hequals := l.not_mem (b := 61) (by decide)
  rw [read_text, Statement.readCompute, text] at h
  by_cases hnone : l.target = []
  · have hrest : 61 ∉ l.expression ++ if l.condition = [] then [] else 59 :: l.condition := by
      split <;> simp [hequals]
    rw [if_pos hnone, List.nil_append, splitAtFirst?_of_not_mem hrest] at h
    obtain ⟨comp, jump, rfl, hcomp, hjump⟩ := readOperation_eq_ok h
    exact ⟨comp, jump, by simp [dest, hnone], by simp [hnone], hcomp, hjump⟩
  · rw [if_neg hnone, List.append_assoc, List.append_assoc, List.singleton_append,
      splitAtFirst?_append_cons hequals.1] at h
    cases hdest : Dest.ofName? l.target with
    | none => simp [hdest] at h
    | some dest =>
      simp only [hdest] at h
      obtain ⟨comp, jump, rfl, hcomp, hjump⟩ := readOperation_eq_ok h
      rw [Dest.ofName?, if_neg (by simpa using hnone), Dest.addLetters?_eq_some_iff] at hdest
      obtain ⟨-, hletters, -, rfl⟩ := hdest
      exact ⟨comp, jump, by simp [ComputeLine.dest], hletters, hcomp, hjump⟩

/-! ## One step of the computer -/

variable {l : ComputeLine} {c p : Computer} {comp : Comp} {jump : Jump} {m result : Word}

theorem Names.dest_eq_empty_iff (h : l.Names comp jump) : l.dest = {} ↔ l.target = [] := by
  constructor
  · intro hdest
    simp only [dest, Dest.mk.injEq, decide_eq_false_iff_not] at hdest
    refine List.eq_nil_iff_forall_not_mem.mpr fun b hb => ?_
    rcases h.letters b hb with rfl | rfl | rfl
    · exact hdest.1 hb
    · exact hdest.2.1 hb
    · exact hdest.2.2 hb
  · intro htarget
    simp [dest, htarget]

theorem closesHaltLoop_iff (h : l.Names comp jump) (c : Computer) :
    c.closesHaltLoop (encode l.dest comp jump) = true ↔ l.target = [] ∧ l.condition = ascii "JMP" ∧
      (c.a.toNat : Int) = c.pc - 1 ∧ c.rom[c.a.toNat]? = some c.a := by
  obtain ⟨-, -, hdest, hjump⟩ := fields_encode l.dest comp jump
  have hjumps : jump.bits = 7 ↔ l.condition = ascii "JMP" := by
    rw [h.condition]
    cases jump <;> decide
  have hstores : l.dest.bits = 0 ↔ l.target = [] := by
    rw [← h.dest_eq_empty_iff]
    obtain ⟨a, d, m⟩ := l.dest
    cases a <;> cases d <;> cases m <;> decide
  simp only [Computer.closesHaltLoop, hdest, hjump, Bool.and_eq_true, beq_iff_eq, hjumps, hstores, and_assoc]
  exact and_left_comm

/-- The computer `p` is `c` with its keyboard register up to date, as far as the line looks at it. -/
structure Polled (l : ComputeLine) (c : Computer) (m : Word) (p : Computer) : Prop where
  same : p = { c with ram := p.ram, keyboard := p.keyboard }
  cells : ∀ i, p.ram.read i = if (l.asked? c).isSome ∧ i = Computer.keyboardAddress then m else c.ram.read i
  size : p.ram.size = c.ram.size
  keyboard : p.keyboard = match l.asked? c with
    | some k => some k.advance
    | none => c.keyboard

theorem Polled.executed (hpolled : l.Polled c m p) (hnames : l.Names comp jump)
    (hstores : 77 ∈ l.target → c.a.toNat < c.ram.size) :
    l.Executed m result c (p.finish (encode l.dest comp jump) result) := by
  have hjumps : jump.holds result = conditionHolds l.condition result.signed := by
    rw [hnames.condition, conditionHolds_name]
  have hparks := closesHaltLoop_iff hnames p
  rw [finish_encode]
  obtain ⟨pc, a, d, rom, ram, cycles, halted, keyboard⟩ := p
  obtain ⟨hsame, hcells, hsize, hkeyboard⟩ := hpolled
  simp only [Computer.mk.injEq, true_and, and_true] at hsame
  obtain ⟨rfl, rfl, rfl, rfl, rfl, rfl⟩ := hsame
  simp only [dest, hjumps, decide_eq_true_eq] at hcells hsize hkeyboard hparks ⊢
  refine ⟨rfl, rfl, rfl, fun i => ?_, ?_, hkeyboard, rfl, rfl, ?_⟩
  · by_cases hstore : 77 ∈ l.target
    · simp only [hstore, if_true, true_and]
      rw [Memory.read_write (hsize ▸ hstores hstore), Function.update_apply, hcells]
    · simp only [hstore, if_false, false_and, hcells]
  · simp only
    split
    · exact hsize
    · exact hsize
  · -- a halt loop jumps whatever the result
    have halways : l.condition = ascii "JMP" → conditionHolds l.condition result.signed = true := by
      intro h
      rw [h]
      simp +decide [conditionHolds, conditions]
    simp only [Bool.or_eq_true, Bool.and_eq_true, hparks]
    exact or_congr_right (and_iff_right_of_imp fun h => halways h.2.1)

theorem Names.output_eq (h : l.Names comp jump) (d a m : Word) :
    Alu.output d (if 77 ∈ l.expression then m else a) comp.bits = comp.value d a m := by
  rw [← comp.output_bits d a m]
  simp only [Expression.mem_iff_readsM h.expression]

theorem Polled.execute (hpolled : l.Polled c m p) (hnames : l.Names comp jump)
    (hstores : 77 ∈ l.target → c.a.toNat < c.ram.size) :
    ∃ c', p.execute (encode l.dest comp jump) (if 77 ∈ l.expression then m else c.a) = .done c' ∧
      l.Executed m (comp.value c.d c.a m) c c' := by
  have ha : p.a = c.a := by rw [hpolled.same]
  have hd : p.d = c.d := by rw [hpolled.same]
  have hbound : l.dest.m = true → p.a.toNat < p.ram.size := by
    simpa [dest, ha, hpolled.size] using hstores
  refine ⟨_, ?_, hpolled.executed hnames hstores⟩
  rw [execute_encode hbound, hd, hnames.output_eq]

theorem polled_of_memory? (hm : l.memory? c = some m) (hsize : 77 ∈ l.expression → c.a.toNat < c.ram.size) :
    ∃ p, (77 ∈ l.expression → c.poll c.a.toNat = .done p ∧ p.ram.read c.a.toNat = m) ∧ (77 ∉ l.expression → p = c) ∧
      l.Polled c m p := by
  unfold memory? at hm
  cases hasked : l.asked? c with
  | none =>
    simp only [hasked, Option.some.injEq] at hm
    refine ⟨c, fun hreads => ⟨?_, hm⟩, fun _ => rfl, ⟨rfl, by simp [hasked], rfl, by simp [hasked]⟩⟩
    by_cases haddr : c.a.toNat = Computer.keyboardAddress
    · rw [asked?, if_pos ⟨hreads, haddr⟩] at hasked
      exact Computer.poll_of_none hasked _
    · rw [Computer.poll, if_neg haddr]
  | some k =>
    obtain ⟨⟨hreads, haddr⟩, hbound⟩ : (77 ∈ l.expression ∧ c.a.toNat = Computer.keyboardAddress) ∧ c.keyboard = some k := by
      simpa [asked?] using hasked
    simp only [hasked] at hm
    cases hnext : k.next with
    | failure message => simp [hnext] at hm
    | breakdown message => simp [hnext] at hm
    | key code =>
      obtain rfl : code = m := by simpa [hnext] using hm
      have hcells : ∀ i, (c.storeKey k code).ram.read i =
          if i = Computer.keyboardAddress then code else c.ram.read i := by
        intro i
        show (c.ram.write Computer.keyboardAddress code).read i = _
        rw [Memory.read_write (haddr ▸ hsize hreads), Function.update_apply]
      refine ⟨c.storeKey k code, fun _ => ⟨?_, ?_⟩, fun h => absurd hreads h,
        ⟨rfl, by simpa [hasked] using hcells, rfl, by simp [hasked, Computer.storeKey]⟩⟩
      · rw [Computer.poll, if_pos haddr]
        simp only [hbound, hnext]
      · rw [haddr, hcells, if_pos rfl]

theorem poll_of_memory?_eq_none (hm : l.memory? c = none) :
    77 ∈ l.expression ∧ ∃ k fault, c.keyboard = some k ∧
      c.poll c.a.toNat = .failed fault { c with keyboard := some k.advance } := by
  unfold memory? at hm
  cases hasked : l.asked? c with
  | none => simp [hasked] at hm
  | some k =>
    obtain ⟨⟨hreads, haddr⟩, hbound⟩ : (77 ∈ l.expression ∧ c.a.toNat = Computer.keyboardAddress) ∧ c.keyboard = some k := by
      simpa [asked?] using hasked
    refine ⟨hreads, k, ?_⟩
    simp only [hasked] at hm
    rw [Computer.poll, if_pos haddr]
    cases hnext : k.next with
    | key code => simp [hnext] at hm
    | failure message => exact ⟨.keyboardFailure message, hbound, by simp only [hbound, hnext]⟩
    | breakdown message => exact ⟨.keyboardBreakdown message, hbound, by simp only [hbound, hnext]⟩

theorem step_eq (hnames : l.Names comp jump) (hfetch : c.fetch? = some (encode l.dest comp jump)) :
    c.step = if 77 ∈ l.expression then
      if c.a.toNat < c.ram.size then
        match c.poll c.a.toNat with
        | .failed fault state => .failed fault state
        | .done p => p.execute (encode l.dest comp jump) (p.ram.read c.a.toNat)
      else .failed (.readOutOfRange c.pc c.a.toNat) c
    else c.execute (encode l.dest comp jump) c.a := by
  have hcompute : c.step = c.compute (encode l.dest comp jump) := by
    rw [Computer.step, hfetch]
    simp only [(fields_encode l.dest comp jump).1, Bool.false_eq_true, if_false]
  have hreads : (encode l.dest comp jump).readsMemory = true ↔ 77 ∈ l.expression := by
    rw [readsMemory_encode, Expression.mem_iff_readsM hnames.expression]
  rw [hcompute]
  exact if_congr hreads rfl rfl

theorem step_of_names (hnames : l.Names comp jump) (hfetch : c.fetch? = some (encode l.dest comp jump))
    (hguard : 77 ∈ l.target ++ l.expression → c.a.toNat < c.ram.size) (hm : l.memory? c = some m) :
    ∃ c', c.step = .done c' ∧ l.Executed m (comp.value c.d c.a m) c c' := by
  rw [List.mem_append, or_imp] at hguard
  obtain ⟨p, hpoll, hsame, hpolled⟩ := polled_of_memory? hm hguard.2
  obtain ⟨c', hexecute, hexecuted⟩ := hpolled.execute hnames hguard.1
  refine ⟨c', ?_, hexecuted⟩
  rw [step_eq hnames hfetch, ← hexecute]
  by_cases hreads : 77 ∈ l.expression
  · obtain ⟨hdone, hread⟩ := hpoll hreads
    rw [if_pos hreads, if_pos (hguard.2 hreads), hdone, if_pos hreads, ← hread]
  · rw [if_neg hreads, if_neg hreads, hsame hreads]

theorem step_eq_readOutOfRange_iff (hnames : l.Names comp jump) (hfetch : c.fetch? = some (encode l.dest comp jump))
    (hsize : c.ram.size ≤ c.a.toNat) :
    c.step = .failed (.readOutOfRange c.pc c.a.toNat) c ↔ 77 ∈ l.expression := by
  rw [step_eq hnames hfetch]
  by_cases hreads : 77 ∈ l.expression
  · simp only [hreads, if_true, if_neg (Nat.not_lt.mpr hsize)]
  · rw [if_neg hreads, Computer.execute]
    split <;> simp [hreads]

end ComputeLine

/-! ## Assembled lines -/

theorem Statement.isInstruction_of_read {text : Bytes} {s : Statement} (h : read text = .ok s) :
    s.isInstruction = (text.head? != some 40) := by
  unfold read at h
  split at h
  · split at h
    · unfold readLabel at h
      split at h
      · exact absurd h (by simp)
      · split at h
        · exact absurd h (by simp)
        · obtain rfl := Except.ok.inj h
          rfl
    · exact absurd h (by simp)
  · rcases (readLoad_eq_ok_iff _ _).mp h with ⟨-, -, -, rfl⟩ | ⟨-, rfl⟩
    · rfl
    · rfl
  · rename_i hlabel _
    obtain ⟨-, -, -, dest, comp, jump, -, -, -, -, rfl⟩ := (readCompute_eq_ok_iff _ _).mp h
    cases text with
    | nil => rfl
    | cons b rest =>
      have hb : b ≠ 40 := fun hb => hlabel rest (by rw [hb])
      simp [isInstruction, hb]

theorem size_of_readAs {texts : List Bytes} {program : List Statement} (h : ReadAs texts program) :
    size program = texts.countP (·.head? != some 40) := by
  induction h with
  | nil => rfl
  | cons hread _ ih =>
    unfold size at ih ⊢
    rw [List.countP_cons, List.countP_cons, ih, Statement.isInstruction_of_read hread]

/-- An accepted compute line becomes the instruction whose address is the number of instructions before it. -/
theorem ComputeLine.assembled {name text : Bytes} {rom : Array Instruction} {l : ComputeLine} {before after : List Bytes}
    (hrom : assemble name (Source.ofBytes text) = .ok rom)
    (hline : Bytes.codes (text.splitOn 10) = before ++ l.text :: after) :
    ∃ comp jump, l.Names comp jump ∧
      rom[before.countP (·.head? != some 40)]? = some (encode l.dest comp jump) := by
  obtain ⟨hfault, program, hread, -, -, hwords⟩ := (assemble_eq_ok_iff _ _ _).mp hrom
  rw [Bytes.codes_lines _ ((Bytes.fault_ofBytes_eq_none_iff text).mp hfault), hline] at hread
  -- the statements before the line, and that of the line
  have hfront := List.forall₂_take before.length hread
  have hrest := List.forall₂_drop before.length hread
  rw [List.take_left] at hfront
  rw [List.drop_left] at hrest
  generalize hfront_eq : program.take before.length = front at hfront
  generalize hrest_eq : program.drop before.length = rest at hrest
  obtain rfl : program = front ++ rest := by rw [← hfront_eq, ← hrest_eq, List.take_append_drop]
  cases hrest with
  | @cons _ s _ rest hs _ =>
    obtain ⟨comp, jump, rfl, hnames⟩ := names_of_read hs
    refine ⟨comp, jump, hnames, ?_⟩
    rw [← size_of_readAs hfront, ← Array.getElem?_toList, hwords, words_append,
      List.getElem?_append_right (by rw [length_words]), length_words, Nat.sub_self]
    rfl

/-- A line that computes does what it says when the computer comes to its instruction. The value of its expression goes to the places
that it names, and the program goes on where A points if the value passes the test, and otherwise behind the line. Memory is read,
and a keyboard asked, exactly if the expression holds an `M`. -/
theorem step_of_computeLine {name text : Bytes} {rom : Array Instruction} {l : ComputeLine} {before after : List Bytes}
    (hrom : assemble name (Source.ofBytes text) = .ok rom)
    (hline : Bytes.codes (text.splitOn 10) = before ++ l.text :: after) :
    ∃ w, rom[before.countP (·.head? != some 40)]? = some w ∧ ∀ c : Computer, c.fetch? = some w →
      ((77 ∈ l.target ++ l.expression → c.a.toNat < c.ram.size) →
        (∀ m, l.memory? c = some m → ∃ result c', Expression.value? c.d c.a m l.expression = some result ∧
          c.step = .done c' ∧ l.Executed m result c c') ∧
        (l.memory? c = none → ∃ k fault, c.keyboard = some k ∧
          c.step = .failed fault { c with keyboard := some k.advance })) ∧
      (c.ram.size ≤ c.a.toNat → (c.step = .failed (.readOutOfRange c.pc c.a.toNat) c ↔ 77 ∈ l.expression)) := by
  obtain ⟨comp, jump, hnames, hword⟩ := ComputeLine.assembled hrom hline
  refine ⟨_, hword, fun c hfetch => ⟨fun hguard => ⟨fun m hm => ?_, fun hm => ?_⟩,
    ComputeLine.step_eq_readOutOfRange_iff hnames hfetch⟩⟩
  · obtain ⟨c', hstep, hexecuted⟩ := ComputeLine.step_of_names hnames hfetch hguard hm
    exact ⟨_, c', Expression.value?_of_isNamed hnames.expression _ _ _, hstep, hexecuted⟩
  · obtain ⟨hreads, k, fault, hkeyboard, hpoll⟩ := ComputeLine.poll_of_memory?_eq_none hm
    refine ⟨k, fault, hkeyboard, ?_⟩
    rw [ComputeLine.step_eq hnames hfetch, if_pos hreads, if_pos (hguard (List.mem_append_right _ hreads)), hpoll]

/-- A line that reads the keyboard register: the key is added to D, stored in the register, and the sum goes to D and A. -/
theorem step_of_computeLine_key :
    let text := ascii "(LOOP)\n@KBD\n DA = M + D ; JLE // the next key\n"
    let c : Computer :=
      { pc := 1, a := 24576, d := 5, rom := #[24576, 0xF0B6], keyboard := some (.ofArray #[.key 7]) }
    assemble [] (Source.ofBytes text) = .ok c.rom ∧ ∃ c', c.step = .done c' ∧ c'.pc = 2 ∧ c'.a = 12 ∧ c'.d = 12 ∧
      c'.ram.read 24576 = 7 ∧ c'.keyboard.map (·.polls) = some 1 := by
  intro text c
  have hrom : assemble [] (Source.ofBytes text) = .ok #[24576, 0xF0B6] := by
    refine (assemble_eq_ok_iff [] _ _).mpr ⟨by decide +kernel,
      [.label (ascii "LOOP"), .load (.symbol (ascii "KBD")), .compute ⟨true, true, false⟩ .dPlusM .le], ?_,
      by decide +kernel, by decide +kernel, by decide +kernel⟩
    unfold ReadAs
    decide +kernel
  have hline : Bytes.codes (text.splitOn 10) = [ascii "(LOOP)", ascii "@KBD"] ++
      ComputeLine.text ⟨ascii "DA", ascii "M+D", ascii "JLE", by decide⟩ :: [] := by decide +kernel
  obtain ⟨w, hw, hmeaning⟩ := step_of_computeLine hrom hline
  obtain rfl : 0xF0B6 = w := Option.some.inj hw
  have hsize : c.a.toNat < c.ram.size := by decide
  obtain ⟨result, c', hresult, hstep, hexecuted⟩ := ((hmeaning c rfl).1 fun _ => hsize).1 7 rfl
  obtain rfl : 12 = result := Option.some.inj hresult
  exact ⟨hrom, c', hstep, hexecuted.pc, hexecuted.a, hexecuted.d, hexecuted.cells 24576, by rw [hexecuted.keyboard]; rfl⟩

end HackPlatform.Assembly
