import HackPlatform.Assembly.Statement
import HackPlatform.Proofs.Text.Numeral
import HackPlatform.Proofs.Text.Lines

/-!
# The grammar of assembly

`Written` says which texts stand for which statements, one rule a form. `Statement.read` accepts exactly these texts and gives
these statements (`read_eq_ok_iff`), so no text has two readings. A statement whose names are symbols is read back from its own
text if that is possible at all (`read_text_iff`): its numbers have to fit a load instruction and its label must not
be predefined.
-/

namespace HackPlatform.Assembly

/-- The texts of a destination in front of a computation. -/
inductive TargetText : Bytes → Dest → Prop where
  | absent : TargetText [] {}
  | letters {text : Bytes} (nonempty : text ≠ []) (distinct : text.Nodup)
      (named : ∀ b ∈ text, b = 65 ∨ b = 68 ∨ b = 77) :
      TargetText (text ++ [61]) ⟨decide (65 ∈ text), decide (68 ∈ text), decide (77 ∈ text)⟩

/-- The texts of a jump behind a computation. -/
inductive ConditionText : Bytes → Jump → Prop where
  | absent : ConditionText [] .never
  | named {jump : Jump} (jumps : jump ≠ .never) : ConditionText (59 :: jump.name) jump

/-- The texts that stand for statements. -/
inductive Written : Bytes → Statement → Prop where
  /-- A label in parentheses. -/
  | label {name : Bytes} (valid : isSymbol name = true) (free : predefined? name = none) :
      Written (40 :: name ++ [41]) (.label name)
  /-- A number behind an at sign. -/
  | number {digits : Bytes} (nonempty : digits ≠ []) (all : ∀ b ∈ digits, Bytes.isDigit b = true)
      (fits : Numeral.value digits ≤ maxNumber) :
      Written (64 :: digits) (.load (.number (Numeral.value digits)))
  /-- A symbol behind an at sign. -/
  | symbol {name : Bytes} (valid : (predefined? name).isSome = true ∨ isSymbol name = true) :
      Written (64 :: name) (.load (.symbol name))
  /-- A computation, maybe with a destination in front and a jump behind it. -/
  | compute {target operation condition : Bytes} {dest : Dest} {comp : Comp} {jump : Jump}
      (target_text : TargetText target dest) (named : comp.isNamed operation = true)
      (condition_text : ConditionText condition jump) :
      Written (target ++ operation ++ condition) (.compute dest comp jump)

/-! ## Mnemonics -/

/-- Is the byte none of those that set off the parts of a line? -/
def isInner (b : UInt8) : Bool := b != 40 && b != 64 && b != 59 && b != 61

theorem Comp.ofName?_name (c : Comp) : ofName? c.name = some c := by
  cases c <;> decide

theorem Comp.ofName?_swapped {c : Comp} {s : String} (h : c.swapped? = some s) : ofName? (ascii s) = some c := by
  cases c <;> simp only [Comp.swapped?, reduceCtorEq, Option.some.injEq] at h <;> subst h <;> decide

theorem Comp.isNamed_iff {text : Bytes} {c : Comp} :
    c.isNamed text = true ↔ text = c.name ∨ ∃ s, c.swapped? = some s ∧ text = ascii s := by
  simp [Comp.isNamed, Option.any_eq_true]

theorem Comp.ofName?_eq_some_iff {text : Bytes} {c : Comp} : ofName? text = some c ↔ c.isNamed text = true := by
  constructor
  · intro h
    exact List.find?_some h
  · rw [Comp.isNamed_iff]
    rintro (rfl | ⟨s, hs, rfl⟩)
    · exact ofName?_name c
    · exact ofName?_swapped hs

theorem Comp.inner_of_isNamed {text : Bytes} {c : Comp} (h : c.isNamed text = true) :
    text ≠ [] ∧ text.all isInner = true := by
  rw [Comp.isNamed_iff] at h
  rcases h with rfl | ⟨s, hs, rfl⟩
  · cases c <;> decide
  · cases c <;> simp only [Comp.swapped?, reduceCtorEq, Option.some.injEq] at hs <;> subst hs <;> decide

theorem Jump.ofName?_name {j : Jump} (h : j ≠ .never) : ofName? j.name = some j := by
  cases j with
  | never => exact absurd rfl h
  | _ => decide

theorem Jump.ofName?_eq_some_iff {text : Bytes} {j : Jump} : ofName? text = some j ↔ j ≠ .never ∧ text = j.name := by
  constructor
  · intro h
    have hmem := List.mem_of_find?_eq_some h
    have hname := List.find?_some h
    refine ⟨?_, (eq_of_beq hname).symm⟩
    rintro rfl
    simp at hmem
  · rintro ⟨hne, rfl⟩
    exact ofName?_name hne

theorem Jump.name_all_inner (j : Jump) : j.name.all isInner = true := by
  cases j <;> decide

theorem Dest.addLetters?_eq_some_iff (t d : Dest) (text : Bytes) :
    addLetters? t text = some d ↔
      text.Nodup ∧ (∀ b ∈ text, b = 65 ∨ b = 68 ∨ b = 77) ∧
        ((65 ∈ text → t.a = false) ∧ (68 ∈ text → t.d = false) ∧ (77 ∈ text → t.m = false)) ∧
        d = ⟨t.a || decide (65 ∈ text), t.d || decide (68 ∈ text), t.m || decide (77 ∈ text)⟩ := by
  fun_induction addLetters? t text with
  | case1 t =>
    obtain ⟨a, e, m⟩ := t
    simp only [List.nodup_nil, List.not_mem_nil, false_implies, implies_true, true_and, decide_false, Bool.or_false,
      Option.some.injEq]
    exact eq_comm
  | case2 t rest ha => simp [ha]
  | case3 t rest ha ih =>
    rw [ih]
    simp [ha, and_assoc, and_left_comm]
  | case4 t rest hd => simp [hd]
  | case5 t rest hd ih =>
    rw [ih]
    simp [hd, and_assoc, and_left_comm]
  | case6 t rest hm => simp [hm]
  | case7 t rest hm ih =>
    rw [ih]
    simp [hm, and_assoc, and_left_comm]
  | case8 t b rest h1 h2 h3 =>
    constructor
    · intro h
      exact absurd h (by simp)
    · rintro ⟨-, hnamed, -⟩
      rcases hnamed b (by simp) with h | h | h
      · exact absurd h h1
      · exact absurd h h2
      · exact absurd h h3

theorem Dest.ofName?_eq_some_iff (d : Dest) (text : Bytes) :
    ofName? text = some d ↔ TargetText (text ++ [61]) d := by
  constructor
  · intro h
    unfold ofName? at h
    split at h
    · exact absurd h (by simp)
    · rename_i hne
      obtain ⟨hnodup, hnamed, -, rfl⟩ := (addLetters?_eq_some_iff _ _ _).mp h
      simpa using TargetText.letters (by simpa using hne) hnodup hnamed
  · intro h
    generalize htext : text ++ [61] = t at h
    cases h with
    | absent => simp at htext
    | letters hne hnodup hnamed =>
      obtain rfl := List.append_cancel_right htext
      rw [ofName?, if_neg (by simpa using hne), addLetters?_eq_some_iff]
      exact ⟨hnodup, hnamed, by simp, by simp⟩

/-! ## Parts of a line -/

theorem splitAtFirst?_of_not_mem {sep : UInt8} {text : Bytes} (h : sep ∉ text) :
    Bytes.splitAtFirst? sep text = none := by
  simp [Bytes.splitAtFirst?, h]

theorem splitAtFirst?_append_cons {sep : UInt8} {x y : Bytes} (h : sep ∉ x) :
    Bytes.splitAtFirst? sep (x ++ sep :: y) = some (x, y) := by
  have hx : ∀ b ∈ x, (b != sep) = true := by
    intro b hb
    rw [bne_iff_ne]
    rintro rfl
    exact h hb
  simp [Bytes.splitAtFirst?, List.takeWhile_append_of_pos hx, List.dropWhile_append_of_pos hx]

theorem splitAtFirst?_cases (sep : UInt8) (text : Bytes) :
    (sep ∉ text ∧ Bytes.splitAtFirst? sep text = none) ∨
      ∃ x y, text = x ++ sep :: y ∧ sep ∉ x ∧ Bytes.splitAtFirst? sep text = some (x, y) := by
  by_cases h : sep ∈ text
  · right
    obtain ⟨x, y, rfl, hx⟩ := List.eq_append_cons_of_mem h
    exact ⟨x, y, rfl, hx, splitAtFirst?_append_cons hx⟩
  · exact .inl ⟨h, splitAtFirst?_of_not_mem h⟩

theorem not_mem_of_all_inner {text : Bytes} (h : text.all isInner = true) {b : UInt8} (hb : isInner b = false) :
    b ∉ text := by
  intro hmem
  rw [List.all_eq_true.mp h b hmem] at hb
  exact Bool.noConfusion hb

theorem ConditionText.not_mem {text : Bytes} {jump : Jump} (h : ConditionText text jump) {b : UInt8}
    (hb : isInner b = false) (hne : b ≠ 59) : b ∉ text := by
  cases h with
  | absent => simp
  | named hj =>
    rw [List.mem_cons, not_or]
    exact ⟨hne, not_mem_of_all_inner (Jump.name_all_inner jump) hb⟩

theorem TargetText.not_mem {text : Bytes} {dest : Dest} (h : TargetText text dest) {b : UInt8}
    (hb : isInner b = false) (hne : b ≠ 61) : b ∉ text := by
  cases h with
  | absent => simp
  | letters _ _ hnamed =>
    intro hmem
    rcases List.mem_append.mp hmem with hmem | hmem
    · rcases hnamed b hmem with rfl | rfl | rfl <;> exact absurd hb (by decide)
    · exact hne (List.mem_singleton.mp hmem)

namespace Statement

/-! ## Reading accepts exactly what is written -/

theorem readOperation_eq_ok_iff (dest : Dest) (text : Bytes) (s : Statement) :
    readOperation dest text = .ok s ↔
      ∃ operation condition comp jump, text = operation ++ condition ∧ comp.isNamed operation = true ∧
        ConditionText condition jump ∧ s = .compute dest comp jump := by
  constructor
  · intro h
    rcases splitAtFirst?_cases 59 text with ⟨-, hsplit⟩ | ⟨operation, condition, rfl, -, hsplit⟩
    · rw [readOperation, hsplit] at h
      cases hcomp : Comp.ofName? text with
      | none => simp [hcomp] at h
      | some comp =>
        simp only [hcomp, Except.ok.injEq] at h
        exact ⟨text, [], comp, .never, by simp, Comp.ofName?_eq_some_iff.mp hcomp, .absent, h.symm⟩
    · rw [readOperation, hsplit] at h
      cases hjump : Jump.ofName? condition with
      | none => simp [hjump] at h
      | some jump =>
        cases hcomp : Comp.ofName? operation with
        | none => simp [hjump, hcomp] at h
        | some comp =>
          simp only [hjump, hcomp, Except.ok.injEq] at h
          obtain ⟨hne, rfl⟩ := Jump.ofName?_eq_some_iff.mp hjump
          exact ⟨operation, _, comp, jump, rfl, Comp.ofName?_eq_some_iff.mp hcomp, .named hne, h.symm⟩
  · rintro ⟨operation, condition, comp, jump, rfl, hcomp, hcond, rfl⟩
    have hinner := (Comp.inner_of_isNamed hcomp).2
    have hsemi : (59 : UInt8) ∉ operation := not_mem_of_all_inner hinner (by decide)
    cases hcond with
    | absent =>
      rw [readOperation, List.append_nil, splitAtFirst?_of_not_mem hsemi]
      simp [Comp.ofName?_eq_some_iff.mpr hcomp]
    | named hj =>
      rw [readOperation, splitAtFirst?_append_cons hsemi]
      simp [Jump.ofName?_name hj, Comp.ofName?_eq_some_iff.mpr hcomp]

theorem readCompute_eq_ok_iff (text : Bytes) (s : Statement) :
    readCompute text = .ok s ↔
      ∃ target operation condition dest comp jump, text = target ++ operation ++ condition ∧
        TargetText target dest ∧ comp.isNamed operation = true ∧ ConditionText condition jump ∧
        s = .compute dest comp jump := by
  constructor
  · intro h
    rcases splitAtFirst?_cases 61 text with ⟨-, hsplit⟩ | ⟨target, operation, rfl, -, hsplit⟩
    · rw [readCompute, hsplit] at h
      obtain ⟨operation, condition, comp, jump, rfl, hcomp, hcond, rfl⟩ := (readOperation_eq_ok_iff _ _ _).mp h
      exact ⟨[], operation, condition, {}, comp, jump, rfl, .absent, hcomp, hcond, rfl⟩
    · rw [readCompute, hsplit] at h
      cases hdest : Dest.ofName? target with
      | none => simp [hdest] at h
      | some dest =>
        simp only [hdest] at h
        obtain ⟨operation, condition, comp, jump, rfl, hcomp, hcond, rfl⟩ := (readOperation_eq_ok_iff _ _ _).mp h
        exact ⟨target ++ [61], operation, condition, dest, comp, jump, by simp,
          (Dest.ofName?_eq_some_iff _ _).mp hdest, hcomp, hcond, rfl⟩
  · rintro ⟨target, operation, condition, dest, comp, jump, rfl, htarget, hcomp, hcond, rfl⟩
    have hop : readOperation dest (operation ++ condition) = .ok (.compute dest comp jump) :=
      (readOperation_eq_ok_iff _ _ _).mpr ⟨operation, condition, comp, jump, rfl, hcomp, hcond, rfl⟩
    cases htarget with
    | absent =>
      have hequals : (61 : UInt8) ∉ operation ++ condition := by
        rw [List.mem_append, not_or]
        exact ⟨not_mem_of_all_inner (Comp.inner_of_isNamed hcomp).2 (by decide), hcond.not_mem (by decide) (by decide)⟩
      rw [readCompute, List.nil_append, splitAtFirst?_of_not_mem hequals]
      exact hop
    | @letters letters hne hnodup hnamed =>
      have hequals : (61 : UInt8) ∉ letters := by
        intro hmem
        rcases hnamed 61 hmem with h | h | h <;> exact absurd h (by decide)
      rw [readCompute, List.append_assoc, List.append_assoc, List.singleton_append, splitAtFirst?_append_cons hequals]
      simp only [(Dest.ofName?_eq_some_iff _ _).mpr (TargetText.letters hne hnodup hnamed)]
      exact hop

theorem isSymbol_of_predefined {name : Bytes} (h : (predefined? name).isSome = true) : isSymbol name = true := by
  obtain ⟨entry, hmem, hname⟩ := List.lookup_isSome_iff.mp h
  have hall : predefined.all (fun p => isSymbol p.1) = true := by decide
  rw [eq_of_beq hname]
  exact List.all_eq_true.mp hall entry hmem

theorem exists_cons_of_isSymbol {name : Bytes} (h : isSymbol name = true) :
    ∃ b rest, name = b :: rest ∧ Bytes.isDigit b = false := by
  cases name with
  | nil => exact absurd h (by decide)
  | cons b rest =>
    refine ⟨b, rest, rfl, ?_⟩
    simp only [isSymbol, isWordOf, Bool.and_eq_true, Bool.not_eq_true'] at h
    exact h.1.1

theorem readLoad_eq_ok_iff (argument : Bytes) (s : Statement) :
    readLoad argument = .ok s ↔
      (argument ≠ [] ∧ (∀ b ∈ argument, Bytes.isDigit b = true) ∧ Numeral.value argument ≤ maxNumber ∧
          s = .load (.number (Numeral.value argument))) ∨
        (((predefined? argument).isSome = true ∨ isSymbol argument = true) ∧ s = .load (.symbol argument)) := by
  cases argument with
  | nil => simp [readLoad, show predefined? [] = none by decide, show isSymbol [] = false by decide]
  | cons b rest =>
    by_cases hb : Bytes.isDigit b = true
    · -- a text that starts with a digit is no symbol
      have hsymbol : ¬((predefined? (b :: rest)).isSome = true ∨ isSymbol (b :: rest) = true) := by
        intro h
        obtain ⟨c, rest', heq, hc⟩ := exists_cons_of_isSymbol (h.elim isSymbol_of_predefined id)
        obtain ⟨rfl, -⟩ := List.cons.inj heq
        rw [hb] at hc
        exact Bool.noConfusion hc
      simp only [readLoad, hb, if_true, hsymbol, false_and, or_false]
      cases hread : Numeral.readNat? (b :: rest) with
      | none =>
        refine ⟨fun h => absurd h (by simp), fun ⟨hne, hall, _, _⟩ => ?_⟩
        rw [(Numeral.readNat?_eq_some_iff _ _).mpr ⟨hne, hall, rfl⟩] at hread
        exact absurd hread (by simp)
      | some n =>
        obtain ⟨hne, hall, rfl⟩ := (Numeral.readNat?_eq_some_iff _ _).mp hread
        by_cases hfits : Numeral.value (b :: rest) ≤ maxNumber
        · simp only [hfits, if_true, Except.ok.injEq]
          exact ⟨fun h => ⟨hne, hall, trivial, h.symm⟩, fun h => h.2.2.2.symm⟩
        · simp [hfits]
    · have hdigits : ¬∀ c ∈ b :: rest, Bytes.isDigit c = true := fun h => hb (h b (by simp))
      simp only [readLoad, hb, hdigits, Bool.false_eq_true, if_false, Bool.or_eq_true, false_and, and_false, false_or]
      split
      · rename_i h
        simp only [h, Except.ok.injEq, true_and]
        exact eq_comm
      · rename_i h
        simp [h]

/-- Reading a line gives a statement exactly if the line stands for it. -/
theorem read_eq_ok_iff (text : Bytes) (s : Statement) : read text = .ok s ↔ Written text s := by
  constructor
  · intro h
    unfold read at h
    split at h
    · rename_i rest
      split at h
      · rename_i hlast
        -- the last byte is not the opening parenthesis itself
        obtain ⟨name, rfl⟩ : ∃ name, rest = name ++ [41] := by
          cases rest with
          | nil => simp at hlast
          | cons c rest => exact List.getLast?_eq_some_iff.mp (by simpa using hlast)
        rw [List.dropLast_concat, readLabel] at h
        split at h
        · exact absurd h (by simp)
        · rename_i hvalid
          split at h
          · exact absurd h (by simp)
          · rename_i hfree
            obtain rfl := (Except.ok.inj h).symm
            exact .label (by simpa using hvalid) (by simpa using hfree)
      · exact absurd h (by simp)
    · rename_i rest
      rcases (readLoad_eq_ok_iff _ _).mp h with ⟨hne, hall, hfits, rfl⟩ | ⟨hvalid, rfl⟩
      · exact .number hne hall hfits
      · exact .symbol hvalid
    · obtain ⟨target, operation, condition, dest, comp, jump, rfl, htarget, hcomp, hcond, rfl⟩ :=
        (readCompute_eq_ok_iff _ _).mp h
      exact .compute htarget hcomp hcond
  · intro h
    cases h with
    | @label name hvalid hfree =>
      have hlast : (40 :: (name ++ [41]) : Bytes).getLast? = some 41 := by
        rw [← List.cons_append, List.getLast?_concat]
      simp [read, hlast, readLabel, hvalid, hfree]
    | number hne hall hfits => exact (readLoad_eq_ok_iff _ _).mpr (.inl ⟨hne, hall, hfits, rfl⟩)
    | symbol hvalid => exact (readLoad_eq_ok_iff _ _).mpr (.inr ⟨hvalid, rfl⟩)
    | @compute target operation condition dest comp jump htarget hcomp hcond =>
      obtain ⟨hne, hinner⟩ := Comp.inner_of_isNamed hcomp
      have hfirst : ∀ b, isInner b = false → b ≠ 59 → b ≠ 61 → b ∉ target ++ operation ++ condition := by
        intro b hb h59 h61
        simp only [List.mem_append, not_or]
        exact ⟨⟨htarget.not_mem hb h61, not_mem_of_all_inner hinner hb⟩, hcond.not_mem hb h59⟩
      have hread := (readCompute_eq_ok_iff _ _).mpr
        ⟨target, operation, condition, dest, comp, jump, rfl, htarget, hcomp, hcond, rfl⟩
      generalize target ++ operation ++ condition = text at hfirst hread ⊢
      unfold read
      split
      · exact absurd (by simp) (hfirst 40 (by decide) (by decide) (by decide))
      · exact absurd (by simp) (hfirst 64 (by decide) (by decide) (by decide))
      · exact hread

/-! ## The text of a statement -/

/-- The name that the statement holds, if there is one, satisfies `Q`. -/
def Named (Q : Bytes → Prop) : Statement → Prop
  | label name => Q name
  | load (.symbol name) => Q name
  | _ => True

/-- Is the name of the statement a symbol? -/
def WellNamed (s : Statement) : Prop := s.Named fun name => isSymbol name = true

/-- Is the statement read back from its text? -/
def Readable : Statement → Prop
  | label name => isSymbol name = true ∧ predefined? name = none
  | load (.number n) => 0 ≤ n ∧ n ≤ maxNumber
  | load (.symbol name) => isSymbol name = true
  | compute _ _ _ => True

instance : DecidablePred Readable
  | label name => inferInstanceAs (Decidable (isSymbol name = true ∧ predefined? name = none))
  | load (.number n) => inferInstanceAs (Decidable (0 ≤ n ∧ n ≤ maxNumber))
  | load (.symbol name) => inferInstanceAs (Decidable (isSymbol name = true))
  | compute _ _ _ => isTrue trivial

theorem Readable.wellNamed {s : Statement} (h : s.Readable) : s.WellNamed := by
  cases s with
  | label name => exact h.1
  | load operand =>
    cases operand with
    | number n => trivial
    | symbol name => exact h
  | compute dest comp jump => trivial

theorem targetText_name (dest : Dest) : TargetText (if dest.isNone then [] else dest.name ++ [61]) dest := by
  obtain ⟨a, d, m⟩ := dest
  cases a <;> cases d <;> cases m
  · exact .absent
  all_goals exact (Dest.ofName?_eq_some_iff _ _).mp (by decide)

theorem conditionText_name (jump : Jump) : ConditionText (if jump = .never then [] else 59 :: jump.name) jump := by
  by_cases h : jump = .never
  · subst h
    exact .absent
  · rw [if_neg h]
    exact .named h

theorem written_computeText (dest : Dest) (comp : Comp) (jump : Jump) :
    Written (computeText dest comp jump) (.compute dest comp jump) :=
  .compute (targetText_name dest) (Comp.isNamed_iff.mpr (.inl rfl)) (conditionText_name jump)

theorem Readable.written {s : Statement} (h : s.Readable) : Written s.text s := by
  cases s with
  | label name => exact .label h.1 h.2
  | load operand =>
    cases operand with
    | number n =>
      obtain ⟨m, rfl⟩ := Int.eq_ofNat_of_zero_le h.1
      have hfits : Numeral.value (Numeral.ofNat m) ≤ maxNumber := by
        rw [Numeral.value_ofNat]
        exact Int.ofNat_le.mp h.2
      have hnumber := Written.number (Numeral.ofNat_ne_nil m) (Numeral.isDigit_of_mem_ofNat m) hfits
      rwa [Numeral.value_ofNat] at hnumber
    | symbol name => exact .symbol (.inr h)
  | compute dest comp jump => exact written_computeText dest comp jump

theorem readable_of_read {text : Bytes} {s : Statement} (h : read text = .ok s) : s.Readable := by
  cases (read_eq_ok_iff _ _).mp h with
  | label valid free => exact ⟨valid, free⟩
  | number nonempty all fits => exact ⟨Int.natCast_nonneg _, Int.ofNat_le.mpr fits⟩
  | symbol valid => exact valid.elim isSymbol_of_predefined id
  | compute target_text named condition_text => trivial

theorem readable_of_written {s t : Statement} (hs : s.WellNamed) (h : Written s.text t) : s.Readable := by
  have hread := (read_eq_ok_iff _ _).mpr h
  cases s with
  | label name =>
    have hlast : (40 :: (name ++ [41]) : Bytes).getLast? = some 41 := by
      rw [← List.cons_append, List.getLast?_concat]
    refine ⟨hs, ?_⟩
    cases hfree : predefined? name with
    | none => rfl
    | some value =>
      simp [text, read, hlast, readLabel, hfree, show isSymbol name = true from hs] at hread
  | load operand =>
    cases operand with
    | number n =>
      by_cases hn : 0 ≤ n
      · obtain ⟨m, rfl⟩ := Int.eq_ofNat_of_zero_le hn
        rcases (readLoad_eq_ok_iff _ _).mp hread with ⟨-, -, hfits, -⟩ | ⟨hvalid, -⟩
        · rw [Numeral.ofInt_natCast, Numeral.value_ofNat] at hfits
          exact ⟨hn, Int.ofNat_le.mpr hfits⟩
        · -- a numeral is no symbol
          obtain ⟨b, rest, hb, hdigit⟩ := Numeral.exists_cons_ofNat m
          obtain ⟨c, rest', hc, hno⟩ := exists_cons_of_isSymbol (hvalid.elim isSymbol_of_predefined id)
          rw [Numeral.ofInt_natCast, hb] at hc
          obtain ⟨rfl, -⟩ := List.cons.inj hc
          rw [hdigit] at hno
          exact Bool.noConfusion hno
      · -- a minus sign is neither a digit nor the start of a symbol
        obtain ⟨m, hm⟩ := Numeral.ofInt_of_neg (show n < 0 by omega)
        rcases (readLoad_eq_ok_iff _ _).mp hread with ⟨-, hall, -⟩ | ⟨hvalid, -⟩
        · exact absurd (hall 45 (by simp [hm])) (by decide)
        · have hsymbol := hvalid.elim isSymbol_of_predefined id
          rw [hm] at hsymbol
          simp [isSymbol, isWordOf, isSymbolByte, isNameByte, Bytes.isLetter, Bytes.isDigit] at hsymbol
    | symbol name => exact hs
  | compute dest comp jump => trivial

theorem read_text_iff {s t : Statement} (hs : s.WellNamed) : read s.text = .ok t ↔ t = s ∧ s.Readable := by
  constructor
  · intro h
    have hreadable := readable_of_written hs ((read_eq_ok_iff _ _).mp h)
    rw [(read_eq_ok_iff _ _).mpr hreadable.written] at h
    exact ⟨(Except.ok.inj h).symm, hreadable⟩
  · rintro ⟨rfl, hreadable⟩
    exact (read_eq_ok_iff _ _).mpr hreadable.written

theorem isPlain_of_isSymbolByte {b : UInt8} (h : isSymbolByte b = true) : Bytes.isPlain b = true := by
  simp only [isSymbolByte, isNameByte, Bytes.isLetter, Bytes.isDigit, Bool.or_eq_true, Bool.and_eq_true,
    decide_eq_true_eq, beq_iff_eq, UInt8.le_iff_toNat_le, ← UInt8.toNat_inj] at h
  simp only [Bytes.isPlain, Bool.and_eq_true, decide_eq_true_eq, bne_iff_ne, ne_eq, UInt8.lt_iff_toNat_lt, ← UInt8.toNat_inj]
  simp only [UInt8.reduceToNat] at h ⊢
  omega

theorem all_isPlain_of_isSymbol {name : Bytes} (h : isSymbol name = true) : name.all Bytes.isPlain = true := by
  rw [List.all_eq_true]
  cases name with
  | nil => simp
  | cons c rest =>
    simp only [isSymbol, isWordOf, Bool.and_eq_true, List.all_eq_true] at h
    intro b hb
    rcases List.mem_cons.mp hb with rfl | hb
    · exact isPlain_of_isSymbolByte h.1.2
    · exact isPlain_of_isSymbolByte (h.2 b hb)

theorem all_isPlain_ofInt (n : Int) : (Numeral.ofInt n).all Bytes.isPlain = true := by
  have hnat : ∀ m, (Numeral.ofNat m).all Bytes.isPlain = true := by
    intro m
    rw [List.all_eq_true]
    intro b hb
    have hdigit := Numeral.isDigit_of_mem_ofNat m b hb
    exact isPlain_of_isSymbolByte (by simp [isSymbolByte, isNameByte, hdigit])
  cases n with
  | ofNat m => exact hnat m
  | negSucc m =>
    rw [Numeral.ofInt, List.all_cons, hnat (m + 1)]
    rfl

theorem all_isPlain_text {s : Statement} (hs : s.WellNamed) : s.text.all Bytes.isPlain = true := by
  cases s with
  | label name =>
    rw [text, List.all_append, List.all_cons, all_isPlain_of_isSymbol hs]
    rfl
  | load operand =>
    cases operand with
    | number n =>
      rw [text, List.all_cons, all_isPlain_ofInt]
      rfl
    | symbol name =>
      rw [text, List.all_cons, all_isPlain_of_isSymbol hs]
      rfl
  | compute dest comp jump =>
    obtain ⟨a, d, m⟩ := dest
    have hcomp : comp.name.all Bytes.isPlain = true := by cases comp <;> decide
    have hjump : (if jump = .never then [] else 59 :: jump.name).all Bytes.isPlain = true := by cases jump <;> decide
    have hdest : ((if Dest.isNone ⟨a, d, m⟩ then [] else Dest.name ⟨a, d, m⟩ ++ [61]) : Bytes).all Bytes.isPlain = true := by
      cases a <;> cases d <;> cases m <;> decide
    rw [text, computeText, List.all_append, List.all_append, hdest, hcomp, hjump]
    rfl

theorem text_ne_nil (s : Statement) : s.text ≠ [] := by
  cases s with
  | label name => simp [text]
  | load operand => cases operand <;> simp [text]
  | compute dest comp jump =>
    have hcomp : comp.name ≠ [] := by cases comp <;> decide
    simp [text, computeText, hcomp]

end Statement

end HackPlatform.Assembly
