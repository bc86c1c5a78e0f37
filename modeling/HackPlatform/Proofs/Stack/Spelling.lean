import Mathlib.Data.List.Forall2
import HackPlatform.Proofs.Text.Columns
import HackPlatform.Stack.Program

/-!
# The spelling of commands

A command is well-formed if its operation or segment has a name, its name is an identifier and its index is in range
(`Command.WellFormed`). Words spell a command if they are those of its written form, where an index may have zeros in front
(`Command.Spells`). Fields are read as a command exactly if their words spell it (`readFields_eq_ok_iff`); white space and columns
play no part in it.
-/

namespace HackPlatform.Stack

/-- Can the command stand in a program? -/
def Command.WellFormed : Command → Prop
  | arithmetic op => op ∈ Op.all
  | push segment index => segment ∈ Segment.all ∧ 0 ≤ index.toInt ∧ (segment = .constant → index.toInt ≤ 32767)
  | pop segment index => segment ∈ Segment.all ∧ segment ≠ .constant ∧ 0 ≤ index.toInt
  | label name | goto name | ifGoto name => isIdentifier name = true
  | function name count | call name count => isIdentifier name = true ∧ 0 ≤ count.toInt
  | .return => True
  | unknown _ => False

/-- The words of the written form. -/
def Command.words (c : Command) : List Bytes :=
  match c with
  | arithmetic op => [op.name]
  | push segment index | pop segment index => [c.kind.name, segment.name, Numeral.ofInt index.toInt]
  | label name | goto name | ifGoto name => [c.kind.name, name]
  | function name index | call name index => [c.kind.name, name, Numeral.ofInt index.toInt]
  | .return | unknown _ => [c.kind.name]

theorem Command.text_eq (c : Command) : c.text = Bytes.joinWith [32] c.words := by
  cases c <;> simp [Command.text, Command.words, Bytes.joinWith]

/-! ## Words up to zeros in front of a number -/

/-- The words are equal, or they are decimal digits of the same number. -/
def SameWord (word other : Bytes) : Prop := word = other ∨ ∃ n, Numeral.readNat? word = some n ∧ Numeral.readNat? other = some n

namespace SameWord

variable {word other third : Bytes}

theorem refl (word : Bytes) : SameWord word word := .inl rfl

instance : Std.Refl SameWord := ⟨refl⟩

theorem trans (h : SameWord word other) (h' : SameWord other third) : SameWord word third := by
  rcases h with rfl | ⟨n, hword, hother⟩
  · exact h'
  · rcases h' with rfl | ⟨m, hother', hthird⟩
    · exact .inr ⟨n, hword, hother⟩
    · obtain rfl : n = m := Option.some.inj (hother.symm.trans hother')
      exact .inr ⟨n, hword, hthird⟩

theorem eq_of_none (h : SameWord word other) (hother : Numeral.readNat? other = none) : word = other := by
  rcases h with rfl | ⟨n, -, hn⟩
  · rfl
  · simp [hother] at hn

theorem readNat?_eq (h : SameWord word other) : Numeral.readNat? word = Numeral.readNat? other := by
  rcases h with rfl | ⟨n, hword, hother⟩
  · rfl
  · rw [hword, hother]

theorem forall₂_trans {words others thirds : List Bytes} (h : List.Forall₂ SameWord words others)
    (h' : List.Forall₂ SameWord others thirds) : List.Forall₂ SameWord words thirds := by
  induction h generalizing thirds with
  | nil => exact h'
  | cons hfirst _ ih =>
    obtain ⟨third, rest, hfirst', hrest, rfl⟩ := List.forall₂_cons_left_iff.mp h'
    exact .cons (hfirst.trans hfirst') (ih hrest)

end SameWord

theorem readNat?_of_isIdentifier {name : Bytes} (h : isIdentifier name = true) : Numeral.readNat? name = none := by
  cases name with
  | nil => rfl
  | cons b rest =>
    simp only [isIdentifier, isWordOf, Bool.and_eq_true, Bool.not_eq_true'] at h
    simp [Numeral.readNat?, h.1.1]

/-- Words spell a command. -/
def Command.Spells (words : List Bytes) (c : Command) : Prop := c.WellFormed ∧ List.Forall₂ SameWord words c.words

theorem Command.Spells.of_same {words others : List Bytes} {c : Command} (h : Spells others c)
    (hsame : List.Forall₂ SameWord words others) : Spells words c :=
  ⟨h.1, SameWord.forall₂_trans hsame h.2⟩

/-! ## Single fields -/

theorem readNat?_ofInt {n : Int} (h : 0 ≤ n) : Numeral.readNat? (Numeral.ofInt n) = some n.toNat := by
  rw [Numeral.ofInt_of_nonneg h, Numeral.readNat?_ofNat]

theorem readIndex_eq_ok_iff (f : Bytes.Field) (index : Int64) :
    readIndex f = .ok index ↔ 0 ≤ index.toInt ∧ SameWord f.text (Numeral.ofInt index.toInt) := by
  have hlt := index.toInt_lt
  unfold readIndex
  constructor
  · intro h
    split at h
    · rename_i n hn
      split at h
      · rename_i hle
        obtain rfl := Except.ok.inj h
        have htoInt : (Int64.ofNat n).toInt = n := Int64.toInt_ofNat_of_lt (by unfold Numeral.maxInt64 at hle; omega)
        rw [htoInt]
        exact ⟨by omega, .inr ⟨n, hn, Numeral.readNat?_ofNat n⟩⟩
      · exact absurd h (by simp [Complaint.at])
    · exact absurd h (by simp [Complaint.at])
  · rintro ⟨hnonneg, hsame⟩
    have hle : ((index.toInt.toNat : Nat) : Int) ≤ Numeral.maxInt64 := by unfold Numeral.maxInt64; omega
    have hofNat : Int64.ofNat index.toInt.toNat = index := by
      rw [← Int64.toInt_inj, Int64.toInt_ofNat_of_lt (by omega)]
      omega
    simp only [hsame.readNat?_eq, readNat?_ofInt hnonneg, hle, if_true, hofNat]

theorem readName_eq_ok_iff (f : Bytes.Field) (name : Bytes) :
    readName f = .ok name ↔ isIdentifier name = true ∧ SameWord f.text name := by
  unfold readName
  constructor
  · intro h
    split at h
    · rename_i hname
      obtain rfl := Except.ok.inj h
      exact ⟨hname, .refl _⟩
    · exact absurd h (by simp [Complaint.at])
  · rintro ⟨hname, hsame⟩
    rw [hsame.eq_of_none (readNat?_of_isIdentifier hname), if_pos hname]

theorem find?_name_eq_some_iff {α : Type} {all : List α} {name : α → Bytes}
    (hnames : ∀ x ∈ all, all.find? (fun y => name y == name x) = some x ∧ Numeral.readNat? (name x) = none) (word : Bytes)
    (x : α) : all.find? (fun y => name y == word) = some x ↔ x ∈ all ∧ SameWord word (name x) := by
  constructor
  · intro h
    have hname := List.find?_some h
    exact ⟨List.mem_of_find?_eq_some h, .inl (beq_iff_eq.mp hname).symm⟩
  · rintro ⟨hmem, hsame⟩
    rw [hsame.eq_of_none (hnames x hmem).2, (hnames x hmem).1]

theorem segment_ofName?_eq_some_iff (word : Bytes) (segment : Segment) :
    Segment.ofName? word = some segment ↔ segment ∈ Segment.all ∧ SameWord word segment.name :=
  find?_name_eq_some_iff (by decide) word segment

theorem op_ofName?_eq_some_iff (word : Bytes) (op : Op) : Op.ofName? word = some op ↔ op ∈ Op.all ∧ SameWord word op.name :=
  find?_name_eq_some_iff (by decide) word op

theorem kind_ofName?_eq_some_iff (word : Bytes) (kind : Kind) :
    Kind.ofName? word = some kind ↔ kind ∈ Kind.keywords ∧ SameWord word kind.name :=
  find?_name_eq_some_iff (by decide) word kind

/-! ## Whole commands -/

theorem readAccess_eq_ok_iff (kind : Kind) (first second : Bytes.Field) (c : Command) :
    readAccess kind first second = .ok c ↔ ∃ segment index, segment ∈ Segment.all ∧ SameWord first.text segment.name ∧
      0 ≤ index.toInt ∧ SameWord second.text (Numeral.ofInt index.toInt) ∧ ¬(segment = .constant ∧ kind = .pop) ∧
      (segment = .constant → index.toInt ≤ 32767) ∧ c = .ofFields kind .add segment index [] := by
  have hrange : ∀ (segment : Segment) (index : Int64),
      ¬(segment = .constant ∧ maxConstant < index) ↔ (segment = .constant → index.toInt ≤ 32767) := by
    intro segment index
    rw [Int64.lt_iff_toInt_lt, not_and]
    exact ⟨fun h hsegment => Int.not_lt.mp (h hsegment), fun h hsegment => Int.not_lt.mpr (h hsegment)⟩
  unfold readAccess
  constructor
  · intro h
    split at h
    · exact absurd h (by simp [Complaint.at])
    · rename_i segment hsegment
      obtain ⟨hmem, hname⟩ := (segment_ofName?_eq_some_iff _ _).mp hsegment
      split at h
      · exact absurd h (by simp)
      · rename_i index hindex
        obtain ⟨hnonneg, hnumber⟩ := (readIndex_eq_ok_iff _ _).mp hindex
        split at h
        · exact absurd h (by simp [Complaint.at])
        · rename_i hpop
          split at h
          · exact absurd h (by simp [Complaint.at])
          · rename_i hconstant
            exact ⟨segment, index, hmem, hname, hnonneg, hnumber, hpop, (hrange _ _).mp hconstant, (Except.ok.inj h).symm⟩
  · rintro ⟨segment, index, hmem, hname, hnonneg, hnumber, hpop, hconstant, rfl⟩
    simp only [(segment_ofName?_eq_some_iff _ _).mpr ⟨hmem, hname⟩, (readIndex_eq_ok_iff _ _).mpr ⟨hnonneg, hnumber⟩,
      if_neg hpop, if_neg ((hrange _ _).mpr hconstant)]

theorem readArguments_name_iff (kind : Kind) (first : Bytes.Field) (c : Command) :
    readArguments kind [first] = .ok c ↔ ∃ name, isIdentifier name = true ∧ SameWord first.text name ∧
      c = .ofFields kind .add .constant 0 name := by
  simp only [← and_assoc, ← readName_eq_ok_iff, readArguments]
  cases readName first <;> simp [eq_comm]

theorem readArguments_count_iff {kind : Kind} (hkind : ¬(kind = .push ∨ kind = .pop)) (first second : Bytes.Field) (c : Command) :
    readArguments kind [first, second] = .ok c ↔ ∃ name index, (isIdentifier name = true ∧ SameWord first.text name) ∧
      (0 ≤ index.toInt ∧ SameWord second.text (Numeral.ofInt index.toInt)) ∧ c = .ofFields kind .add .constant index name := by
  simp only [← readName_eq_ok_iff, ← readIndex_eq_ok_iff, readArguments, if_neg hkind]
  cases readName first with
  | error e => simp
  | ok name => cases readIndex second <;> simp [eq_comm]

theorem readArguments_eq_ok_iff {kind : Kind} (hkind : kind ∈ Kind.keywords) {arguments : List Bytes.Field}
    (harity : arguments.length + 1 = kind.arity) (c : Command) :
    readArguments kind arguments = .ok c ↔ c.kind = kind ∧ Command.Spells (kind.name :: arguments.map Bytes.Field.text) c := by
  match arguments with
  | [] =>
    cases kind with
    | «return» =>
      constructor
      · intro h
        obtain rfl := Except.ok.inj h
        exact ⟨rfl, trivial, .cons (.refl _) .nil⟩
      · rintro ⟨hc, -⟩
        cases c <;> simp [Command.kind] at hc
        rfl
    | unknown code => exact absurd hkind (by simp [Kind.keywords])
    | arithmetic => exact absurd hkind (by simp [Kind.keywords])
    | _ => exact absurd harity (by simp [Kind.arity])
  | [first] =>
    rw [readArguments_name_iff]
    cases kind with
    | label | goto | ifGoto =>
      constructor
      · rintro ⟨name, hname, hsame, rfl⟩
        exact ⟨rfl, hname, .cons (.refl _) (.cons hsame .nil)⟩
      · rintro ⟨hc, hwell, hwords⟩
        cases c <;> simp [Command.kind] at hc
        simp only [Command.words, List.map_cons, List.map_nil, List.forall₂_cons] at hwords
        exact ⟨_, hwell, hwords.2.1, rfl⟩
    | _ => exact absurd harity (by simp [Kind.arity])
  | [first, second] =>
    cases kind with
    | push =>
      rw [readArguments, if_pos (by simp), readAccess_eq_ok_iff]
      constructor
      · rintro ⟨segment, index, hmem, hname, hnonneg, hnumber, -, hconstant, rfl⟩
        exact ⟨rfl, ⟨hmem, hnonneg, hconstant⟩, .cons (.refl _) (.cons hname (.cons hnumber .nil))⟩
      · rintro ⟨hc, hwell, hwords⟩
        cases c <;> simp [Command.kind] at hc
        obtain ⟨hmem, hnonneg, hconstant⟩ := hwell
        simp only [Command.words, List.map_cons, List.map_nil, List.forall₂_cons] at hwords
        exact ⟨_, _, hmem, hwords.2.1, hnonneg, hwords.2.2.1, by simp, hconstant, rfl⟩
    | pop =>
      rw [readArguments, if_pos (by simp), readAccess_eq_ok_iff]
      constructor
      · rintro ⟨segment, index, hmem, hname, hnonneg, hnumber, hpop, -, rfl⟩
        exact ⟨rfl, ⟨hmem, fun hconstant => hpop ⟨hconstant, rfl⟩, hnonneg⟩, .cons (.refl _) (.cons hname (.cons hnumber .nil))⟩
      · rintro ⟨hc, hwell, hwords⟩
        cases c <;> simp [Command.kind] at hc
        obtain ⟨hmem, hvariable, hnonneg⟩ := hwell
        simp only [Command.words, List.map_cons, List.map_nil, List.forall₂_cons] at hwords
        exact ⟨_, _, hmem, hwords.2.1, hnonneg, hwords.2.2.1, fun hpop => hvariable hpop.1, fun h => absurd h hvariable, rfl⟩
    | function | call =>
      rw [readArguments_count_iff (by simp)]
      constructor
      · rintro ⟨name, index, ⟨hname, hsame⟩, ⟨hnonneg, hnumber⟩, rfl⟩
        exact ⟨rfl, ⟨hname, hnonneg⟩, .cons (.refl _) (.cons hsame (.cons hnumber .nil))⟩
      · rintro ⟨hc, hwell, hwords⟩
        cases c <;> simp [Command.kind] at hc
        simp only [Command.words, List.map_cons, List.map_nil, List.forall₂_cons] at hwords
        exact ⟨_, _, ⟨hwell.1, hwords.2.1⟩, ⟨hwell.2, hwords.2.2.1⟩, rfl⟩
    | _ => exact absurd harity (by simp [Kind.arity])
  | _ :: _ :: _ :: _ =>
    refine absurd harity ?_
    cases kind <;> simp [Kind.arity]

theorem Command.WellFormed.cases_kind {c : Command} (h : c.WellFormed) :
    (∃ op ∈ Op.all, c = .arithmetic op) ∨ c.kind ∈ Kind.keywords := by
  cases c with
  | arithmetic op => exact .inl ⟨op, h, rfl⟩
  | unknown code => exact False.elim h
  | _ => exact .inr (by simp [Command.kind, Kind.keywords])

theorem Command.words_eq_cons {c : Command} (h : c.kind ∈ Kind.keywords) :
    ∃ rest, c.words = c.kind.name :: rest ∧ rest.length + 1 = c.kind.arity := by
  cases c with
  | arithmetic op => exact absurd h (by simp [Command.kind, Kind.keywords])
  | unknown code => exact absurd h (by simp [Command.kind, Kind.keywords])
  | _ => exact ⟨_, rfl, rfl⟩

/-- Fields are read as a command exactly if their words spell it. -/
theorem readFields_eq_ok_iff (keyword : Bytes.Field) (arguments : List Bytes.Field) (c : Command) :
    readFields keyword arguments = .ok c ↔ Command.Spells (keyword.text :: arguments.map Bytes.Field.text) c := by
  unfold readFields readCommand
  constructor
  · intro h
    split at h
    · rename_i op hop
      obtain ⟨hmem, hsame⟩ := (op_ofName?_eq_some_iff _ _).mp hop
      split at h
      · rename_i harity
        obtain rfl : arguments = [] := List.length_eq_zero_iff.mp (Nat.succ.inj harity)
        obtain rfl := Except.ok.inj h
        exact ⟨hmem, .cons hsame .nil⟩
      · exact absurd h (by simp [Complaint.at])
    · split at h
      · rename_i kind hkind
        obtain ⟨hmem, hsame⟩ := (kind_ofName?_eq_some_iff _ _).mp hkind
        split at h
        · rename_i harity
          obtain ⟨-, hspells⟩ := (readArguments_eq_ok_iff hmem harity c).mp h
          exact hspells.of_same (.cons hsame (List.forall₂_refl _))
        · exact absurd h (by simp [Complaint.at])
      · exact absurd h (by simp [Complaint.at])
  · intro hspells
    rcases hspells.1.cases_kind with ⟨op, hmem, rfl⟩ | hmem
    · -- the only word is the name of the operation
      obtain ⟨hsame, hrest⟩ := List.forall₂_cons.mp hspells.2
      obtain rfl : arguments = [] := List.map_eq_nil_iff.mp (List.forall₂_nil_right_iff.mp hrest)
      rw [(op_ofName?_eq_some_iff _ _).mpr ⟨hmem, hsame⟩]
      rfl
    · obtain ⟨rest, hwords, harity⟩ := Command.words_eq_cons hmem
      have hforall := hspells.2
      rw [hwords] at hforall
      obtain ⟨hsame, hrest⟩ := List.forall₂_cons.mp hforall
      have hplain : ∀ kind ∈ Kind.keywords, Op.ofName? kind.name = none ∧ Numeral.readNat? kind.name = none := by decide
      have hkeyword : keyword.text = c.kind.name := hsame.eq_of_none (hplain c.kind hmem).2
      have hlength : arguments.length + 1 = c.kind.arity := by rw [← harity, ← hrest.length_eq, List.length_map]
      rw [hkeyword] at hspells ⊢
      simp only [(hplain c.kind hmem).1, (kind_ofName?_eq_some_iff _ _).mpr ⟨hmem, .refl _⟩, hlength, if_true]
      exact (readArguments_eq_ok_iff hmem hlength c).mpr ⟨rfl, hspells⟩

end HackPlatform.Stack
