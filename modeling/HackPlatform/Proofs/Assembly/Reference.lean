import Mathlib.Data.Finset.Card
import Mathlib.Data.List.Forall2
import HackPlatform.Assembly.Program
import HackPlatform.Proofs.Assembly.Grammar

/-!
# The reference assembler

What a program means, said without any table: a label is worth the number of instructions before it, a predefined symbol its
fixed value, and every other symbol 16 plus the number of distinct such symbols that are used before it for the first time
(`symbolValue`). The words of a program are those of its instructions, one by one (`words`).

Apart from their values, symbols have an order, that in which they are met (`mentions`), and places where they are used (`UsedAt`).
A variable has the address that comes next when the variables before it in this order have got theirs (`variableAddress_of_order`).
-/

namespace HackPlatform.Assembly

/-! ## Programs without tables -/

def Statement.isInstruction : Statement → Bool
  | label _ => false
  | _ => true

def Statement.label? : Statement → Option Bytes
  | label name => some name
  | _ => none

def Statement.symbol? : Statement → Option Bytes
  | load (.symbol name) => some name
  | _ => none

/-- The number of instructions of a program. -/
def size (program : List Statement) : Nat := program.countP Statement.isInstruction

/-- The labels of a program, in order of declaration. -/
def labelNames (program : List Statement) : List Bytes := program.filterMap Statement.label?

/-- The address of a label: the number of instructions before its declaration. -/
def labelAddress (program : List Statement) (name : Bytes) : Nat :=
  size (program.takeWhile (· ≠ .label name))

/-- Is the symbol a variable of the program: neither predefined nor a label? -/
def isVariable (program : List Statement) (name : Bytes) : Bool :=
  (predefined? name).isNone && !(labelNames program).contains name

/-- The variables of a program that some of its statements use, in order and with repetitions. -/
def usesIn (program part : List Statement) : List Bytes :=
  (part.filterMap Statement.symbol?).filter (isVariable program)

/-- The address of a variable: 16 plus the number of distinct variables used before its first use. -/
def variableAddress (uses : List Bytes) (name : Bytes) : Nat :=
  variableBase + (uses.takeWhile (· ≠ name)).toFinset.card

def symbolValue (program : List Statement) (name : Bytes) : Nat :=
  match predefined? name with
  | some value => value
  | none =>
    if name ∈ labelNames program then labelAddress program name
    else variableAddress (usesIn program program) name

/-- The word of an instruction, for given values of the symbols. -/
def Statement.word? (value : Bytes → Nat) : Statement → Option Instruction
  | label _ => none
  | load (.number n) => some (Word.ofInt n)
  | load (.symbol name) => some (value name).toUInt16
  | compute dest comp jump => some (Instruction.compute comp.bits dest.bits jump.bits)

def words (value : Bytes → Nat) (program : List Statement) : List Instruction :=
  program.filterMap (Statement.word? value)

/-! ## Their laws -/

@[simp] theorem size_nil : size [] = 0 := rfl

@[simp] theorem size_append (xs ys : List Statement) : size (xs ++ ys) = size xs + size ys := by
  simp [size]

@[simp] theorem words_append (value : Bytes → Nat) (xs ys : List Statement) :
    words value (xs ++ ys) = words value xs ++ words value ys := by
  simp [words]

@[simp] theorem labelNames_append (xs ys : List Statement) :
    labelNames (xs ++ ys) = labelNames xs ++ labelNames ys := by
  simp [labelNames]

theorem mem_labelNames {program : List Statement} {name : Bytes} :
    name ∈ labelNames program ↔ .label name ∈ program := by
  rw [labelNames, List.mem_filterMap]
  constructor
  · rintro ⟨s, hs, hname⟩
    cases s with
    | label other =>
      obtain rfl := Option.some.inj hname
      exact hs
    | load operand => exact absurd hname (by simp [Statement.label?])
    | compute dest comp jump => exact absurd hname (by simp [Statement.label?])
  · intro h
    exact ⟨_, h, rfl⟩

theorem nodup_labelNames_concat {program : List Statement} {s : Statement} :
    (labelNames (program ++ [s])).Nodup ↔
      (labelNames program).Nodup ∧ ∀ name, s = .label name → name ∉ labelNames program := by
  rw [labelNames_append]
  cases s with
  | label name =>
    have hsingle : labelNames [.label name] = [name] := rfl
    rw [hsingle, List.nodup_append_comm, List.singleton_append, List.nodup_cons, and_comm]
    simp
  | load operand =>
    have hnone : labelNames [.load operand] = [] := rfl
    simp [hnone]
  | compute dest comp jump =>
    have hnone : labelNames [.compute dest comp jump] = [] := rfl
    simp [hnone]

theorem length_words (value : Bytes → Nat) (program : List Statement) :
    (words value program).length = size program := by
  induction program with
  | nil => rfl
  | cons s rest ih =>
    have hword : (Statement.word? value s).isSome = s.isInstruction := by
      cases s with
      | label name => rfl
      | load operand => cases operand <;> rfl
      | compute dest comp jump => rfl
    unfold words size at *
    rw [List.countP_cons, List.filterMap_cons]
    cases hs : Statement.word? value s with
    | none =>
      rw [hs] at hword
      simp [← hword, ih]
    | some w =>
      rw [hs] at hword
      simp [← hword, ih]

theorem takeWhile_ne_append_cons {α : Type} [DecidableEq α] {xs : List α} {a : α} (h : a ∉ xs) (ys : List α) :
    (xs ++ a :: ys).takeWhile (· ≠ a) = xs := by
  have hpass : ∀ x ∈ xs, decide (x ≠ a) = true := by
    intro x hx
    rw [decide_eq_true_eq]
    rintro rfl
    exact h hx
  rw [List.takeWhile_append_of_pos hpass]
  simp

theorem labelAddress_append {xs : List Statement} {name : Bytes} (h : name ∈ labelNames xs) (ys : List Statement) :
    labelAddress (xs ++ ys) name = labelAddress xs name := by
  obtain ⟨before, after, rfl, hbefore⟩ := List.eq_append_cons_of_mem (mem_labelNames.mp h)
  rw [labelAddress, labelAddress, List.append_assoc, List.cons_append, takeWhile_ne_append_cons hbefore,
    takeWhile_ne_append_cons hbefore]

theorem labelAddress_append_cons {xs : List Statement} {name : Bytes} (h : name ∉ labelNames xs) (ys : List Statement) :
    labelAddress (xs ++ .label name :: ys) name = size xs := by
  rw [labelAddress, takeWhile_ne_append_cons fun hmem => h (mem_labelNames.mpr hmem)]

theorem variableAddress_append {xs : List Bytes} {name : Bytes} (h : name ∈ xs) (ys : List Bytes) :
    variableAddress (xs ++ ys) name = variableAddress xs name := by
  obtain ⟨before, after, rfl, hbefore⟩ := List.eq_append_cons_of_mem h
  rw [variableAddress, variableAddress, List.append_assoc, List.cons_append, takeWhile_ne_append_cons hbefore,
    takeWhile_ne_append_cons hbefore]

theorem variableAddress_append_cons {xs : List Bytes} {name : Bytes} (h : name ∉ xs) (ys : List Bytes) :
    variableAddress (xs ++ name :: ys) name = variableBase + xs.toFinset.card := by
  rw [variableAddress, takeWhile_ne_append_cons h]

theorem variableAddress_lt {uses : List Bytes} {name : Bytes} (h : name ∈ uses) :
    variableAddress uses name < variableBase + uses.toFinset.card := by
  have hsubset : (uses.takeWhile (· ≠ name)).toFinset ⊆ uses.toFinset := by
    intro x hx
    exact List.mem_toFinset.mpr ((List.takeWhile_sublist _).subset (List.mem_toFinset.mp hx))
  refine Nat.add_lt_add_left (Finset.card_lt_card ((Finset.ssubset_iff_of_subset hsubset).mpr ?_)) _
  refine ⟨name, List.mem_toFinset.mpr h, fun hname => ?_⟩
  exact absurd (List.all_eq_true.mp List.all_takeWhile name (List.mem_toFinset.mp hname)) (by simp)

theorem variableAddress_injOn {uses : List Bytes} {x y : Bytes} (hx : x ∈ uses) (hy : y ∈ uses)
    (h : variableAddress uses x = variableAddress uses y) : x = y := by
  induction uses using List.reverseRecOn with
  | nil => exact absurd hx (by simp)
  | append_singleton uses z ih =>
    -- the last use is that of a variable that was used before, or of one with the next address
    have hcases : ∀ {name}, name ∈ uses ++ [z] →
        name ∈ uses ∧ variableAddress (uses ++ [z]) name < variableBase + uses.toFinset.card ∨
          name = z ∧ variableAddress (uses ++ [z]) name = variableBase + uses.toFinset.card := by
      intro name hname
      by_cases hbefore : name ∈ uses
      · exact .inl ⟨hbefore, by rw [variableAddress_append hbefore]; exact variableAddress_lt hbefore⟩
      · obtain rfl : name = z := by simpa [hbefore] using hname
        exact .inr ⟨rfl, variableAddress_append_cons hbefore []⟩
    rcases hcases hx with ⟨hx, hlt⟩ | ⟨rfl, hnext⟩
    · rcases hcases hy with ⟨hy, -⟩ | ⟨rfl, hnext⟩
      · rw [variableAddress_append hx, variableAddress_append hy] at h
        exact ih hx hy h
      · omega
    · rcases hcases hy with ⟨hy, hlt⟩ | ⟨rfl, -⟩
      · omega
      · rfl

theorem labelAddress_le (program : List Statement) (name : Bytes) : labelAddress program name ≤ size program :=
  (List.takeWhile_sublist _).countP_le

theorem isVariable_iff {program : List Statement} {name : Bytes} :
    isVariable program name = true ↔ predefined? name = none ∧ name ∉ labelNames program := by
  simp [isVariable]

theorem mem_usesIn {program part : List Statement} {name : Bytes} :
    name ∈ usesIn program part ↔ .load (.symbol name) ∈ part ∧ isVariable program name = true := by
  rw [usesIn, List.mem_filter, List.mem_filterMap]
  refine and_congr_left fun _ => ⟨?_, fun h => ⟨_, h, rfl⟩⟩
  rintro ⟨s, hs, hname⟩
  cases s with
  | load operand =>
    cases operand with
    | number n => exact absurd hname (by simp [Statement.symbol?])
    | symbol other =>
      obtain rfl := Option.some.inj hname
      exact hs
  | label other => exact absurd hname (by simp [Statement.symbol?])
  | compute dest comp jump => exact absurd hname (by simp [Statement.symbol?])

theorem symbolValue_of_label {program : List Statement} {name : Bytes} (hfree : predefined? name = none)
    (h : name ∈ labelNames program) : symbolValue program name = labelAddress program name := by
  simp only [symbolValue, hfree, if_pos h]

theorem symbolValue_of_variable {program : List Statement} {name : Bytes} (h : isVariable program name = true) :
    symbolValue program name = variableAddress (usesIn program program) name := by
  obtain ⟨hfree, hlabel⟩ := isVariable_iff.mp h
  simp only [symbolValue, hfree, if_neg hlabel]

/-! ## Symbols in order -/

/-- The symbol that a statement declares or uses, if it is not predefined. -/
def Statement.mention? : Statement → Option Bytes
  | label name => some name
  | load (.symbol name) => if predefined? name = none then some name else none
  | _ => none

/-- The symbols that a program declares or uses, in order and with repetitions. -/
def mentions (program : List Statement) : List Bytes := program.filterMap Statement.mention?

/-- The instruction at an address loads the symbol. -/
def UsedAt (program : List Statement) (name : Bytes) (address : Nat) : Prop :=
  ∃ before after, program = before ++ .load (.symbol name) :: after ∧ size before = address

theorem mentions_concat (program : List Statement) (s : Statement) :
    mentions (program ++ [s]) = mentions program ++ s.mention?.toList := by
  cases hs : s.mention? <;> simp [mentions, hs]

theorem mem_mentions {program : List Statement} {name : Bytes} (hfree : predefined? name = none) :
    name ∈ mentions program ↔ name ∈ labelNames program ∨ .load (.symbol name) ∈ program := by
  rw [mem_labelNames, mentions, List.mem_filterMap]
  constructor
  · rintro ⟨s, hs, hname⟩
    cases s with
    | label other =>
      obtain rfl := Option.some.inj hname
      exact .inl hs
    | load operand =>
      cases operand with
      | number n => simp [Statement.mention?] at hname
      | symbol other =>
        obtain ⟨-, rfl⟩ : predefined? other = none ∧ other = name := by simpa [Statement.mention?] using hname
        exact .inr hs
    | compute dest comp jump => simp [Statement.mention?] at hname
  · rintro (hs | hs)
    · exact ⟨_, hs, rfl⟩
    · exact ⟨_, hs, by simp [Statement.mention?, hfree]⟩

theorem usedAt_concat {program : List Statement} {s : Statement} {name : Bytes} {i : Nat} :
    UsedAt (program ++ [s]) name i ↔ UsedAt program name i ∨ s = .load (.symbol name) ∧ i = size program := by
  constructor
  · rintro ⟨before, after, heq, rfl⟩
    cases after using List.reverseRecOn with
    | nil =>
      obtain ⟨rfl, rfl⟩ := List.append_singleton_inj.mp heq
      exact .inr ⟨rfl, rfl⟩
    | append_singleton after last =>
      rw [← List.cons_append, ← List.append_assoc] at heq
      exact .inl ⟨before, after, (List.append_singleton_inj.mp heq).1, rfl⟩
  · rintro (⟨before, after, rfl, rfl⟩ | ⟨rfl, rfl⟩)
    · exact ⟨before, after ++ [s], by simp, rfl⟩
    · exact ⟨program, [], rfl, rfl⟩

theorem exists_usedAt {program : List Statement} {name : Bytes} (h : .load (.symbol name) ∈ program) : ∃ i, UsedAt program name i := by
  obtain ⟨before, after, rfl⟩ := List.append_of_mem h
  exact ⟨_, before, after, rfl, rfl⟩

theorem getElem?_words_of_usedAt (value : Bytes → Nat) {program : List Statement} {name : Bytes} {i : Nat}
    (h : UsedAt program name i) : (words value program)[i]? = some (value name).toUInt16 := by
  obtain ⟨before, after, rfl, rfl⟩ := h
  rw [words_append, ← length_words value before, List.getElem?_append_right (Nat.le_refl _), Nat.sub_self]
  rfl

theorem getElem?_words_update {value : Bytes → Nat} {program : List Statement} {name : Bytes} {i : Nat}
    (h : ¬UsedAt program name i) (n : Nat) : (words (Function.update value name n) program)[i]? = (words value program)[i]? := by
  induction program using List.reverseRecOn with
  | nil => rfl
  | append_singleton program s ih =>
    rw [usedAt_concat, not_or, not_and] at h
    rw [words_append, words_append]
    rcases Nat.lt_or_ge i (size program) with hlt | hge
    · rw [List.getElem?_append_left (by rwa [length_words]), List.getElem?_append_left (by rwa [length_words]), ih h.1]
    · rw [List.getElem?_append_right (by rwa [length_words]), List.getElem?_append_right (by rwa [length_words]), length_words,
        length_words]
      by_cases hs : s = .load (.symbol name)
      · -- this instruction is at another address
        have hlt : size program < i := Nat.lt_of_le_of_ne hge (Ne.symm (h.2 hs))
        rw [List.getElem?_eq_none, List.getElem?_eq_none] <;> simp [hs, words, Statement.word?] <;> omega
      · have hword : s.word? (Function.update value name n) = s.word? value := by
          cases s with
          | label other => rfl
          | load operand =>
            cases operand with
            | number n => rfl
            | symbol other =>
              have hother : other ≠ name := fun heq => hs (by rw [heq])
              simp [Statement.word?, hother]
          | compute dest comp jump => rfl
        simp only [words, List.filterMap_cons, List.filterMap_nil, hword]

/-! ## Order of first appearance -/

theorem eraseDups_concat (xs : List Bytes) (x : Bytes) :
    (xs ++ [x]).eraseDups = if x ∈ xs then xs.eraseDups else xs.eraseDups ++ [x] := by
  rw [List.eraseDups_append]
  by_cases hx : x ∈ xs <;> simp [List.removeAll, List.eraseDups_cons, hx]

theorem nodup_eraseDups (xs : List Bytes) : xs.eraseDups.Nodup := by
  induction xs using List.reverseRecOn with
  | nil => simp
  | append_singleton xs x ih =>
    rw [eraseDups_concat]
    split
    · exact ih
    · rename_i hx
      rw [List.nodup_append_comm, List.singleton_append, List.nodup_cons, List.mem_eraseDups]
      exact ⟨hx, ih⟩

theorem eraseDups_filter (p : Bytes → Bool) (xs : List Bytes) :
    (xs.filter p).eraseDups = xs.eraseDups.filter p := by
  induction xs using List.reverseRecOn with
  | nil => rfl
  | append_singleton xs x ih =>
    rw [List.filter_append, eraseDups_concat]
    cases hp : p x with
    | false => split <;> simp [hp, ih]
    | true =>
      have hfilter : [x].filter p = [x] := by simp [hp]
      rw [hfilter, eraseDups_concat, ih]
      by_cases hx : x ∈ xs <;> simp [hx, hp]

theorem length_eraseDups (xs : List Bytes) : xs.eraseDups.length = xs.toFinset.card := by
  have hsame : xs.eraseDups.toFinset = xs.toFinset := by
    ext x
    simp
  rw [← hsame, List.toFinset_card_of_nodup (nodup_eraseDups xs)]

theorem variableAddress_of_eraseDups {uses before after : List Bytes} {name : Bytes}
    (h : uses.eraseDups = before ++ name :: after) : variableAddress uses name = variableBase + before.length := by
  have hmem : name ∈ uses := by
    rw [← List.mem_eraseDups, h]
    simp
  have hnew : name ∉ before := by
    have hnodup := nodup_eraseDups uses
    rw [h, List.nodup_append_comm, List.cons_append, List.nodup_cons] at hnodup
    exact fun hbefore => hnodup.1 (List.mem_append_right _ hbefore)
  obtain ⟨front, back, rfl, hfront⟩ := List.eq_append_cons_of_mem hmem
  have hfirst : name ∉ front.eraseDups := by rwa [List.mem_eraseDups]
  -- both lists go on with the name, for the first time
  have hsame : front.eraseDups = before := by
    have htail : ((name :: back).removeAll front).eraseDups = name :: (((back.removeAll front).filter (! · == name))).eraseDups := by
      rw [List.removeAll, List.filter_cons_of_pos (by simpa using hfront), List.eraseDups_cons]
      rfl
    rw [List.eraseDups_append, htail] at h
    have := congrArg (List.takeWhile (· ≠ name)) h
    rwa [takeWhile_ne_append_cons hfirst, takeWhile_ne_append_cons hnew] at this
  rw [variableAddress_append_cons hfront, ← length_eraseDups, hsame]

theorem usesIn_eq_filter (program : List Statement) : usesIn program program = (mentions program).filter (isVariable program) := by
  rw [usesIn, mentions, List.filter_filterMap, List.filter_filterMap]
  refine List.filterMap_congr fun s hs => ?_
  cases s with
  | label name =>
    have hlabel : isVariable program name = false := by simp [isVariable, mem_labelNames.mpr hs]
    simp [Statement.symbol?, Statement.mention?, Option.filter, hlabel]
  | load operand =>
    cases operand with
    | number n => rfl
    | symbol name =>
      by_cases hfree : predefined? name = none
      · simp [Statement.symbol?, Statement.mention?, hfree]
      · have hfixed : isVariable program name = false := by simp [isVariable, hfree]
        simp [Statement.symbol?, Statement.mention?, hfree, hfixed]
  | compute dest comp jump => rfl

/-- In the order in which the symbols of a program are met, each variable has the next address. -/
theorem variableAddress_of_order {program : List Statement} {before after : List Bytes} {name : Bytes}
    (horder : (mentions program).eraseDups = before ++ name :: after) (hname : isVariable program name = true) :
    variableAddress (usesIn program program) name = variableBase + (before.filter (isVariable program)).length := by
  have huses : (usesIn program program).eraseDups =
      before.filter (isVariable program) ++ name :: after.filter (isVariable program) := by
    rw [usesIn_eq_filter, eraseDups_filter, horder, List.filter_append, List.filter_cons_of_pos hname]
  exact variableAddress_of_eraseDups huses

end HackPlatform.Assembly
