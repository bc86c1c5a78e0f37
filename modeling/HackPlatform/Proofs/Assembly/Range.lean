import Mathlib.Order.Interval.Finset.Nat
import HackPlatform.Proofs.Machine.Installed

/-!
# Which loads fit a load instruction

A load instruction holds fifteen bits. The numbers that can be written fit, and so do the predefined symbols; labels and variables
are placed without a look at their addresses. A program has at most 32768 instructions, so a label may stand at the address 32768
behind the last of them, and up to 32768 variables from 16 on may end past 32767. The words are still different
from each other, since sixteen bits are enough for all of these addresses, but those that do not fit are compute instructions
(`loads_fit_iff`).
-/

namespace HackPlatform.Assembly

/-- What a load statement is about to load. -/
def Operand.amount (value : Bytes → Nat) : Operand → Nat
  | number n => n.toNat
  | symbol name => value name

def Statement.isLoad : Statement → Bool
  | load _ => true
  | _ => false

/-- The variables of a program. -/
def variableNames (program : List Statement) : Finset Bytes := (usesIn program program).toFinset

variable {program : List Statement} {name : Bytes}

theorem mem_variableNames : name ∈ variableNames program ↔
    .load (.symbol name) ∈ program ∧ isVariable program name = true := by
  rw [variableNames, List.mem_toFinset, mem_usesIn]

theorem card_variableNames_le (program : List Statement) :
    (variableNames program).card ≤ program.countP Statement.isLoad := by
  calc (variableNames program).card
    _ ≤ (usesIn program program).length := List.toFinset_card_le _
    _ ≤ (program.filterMap Statement.symbol?).length := List.length_filter_le _ _
    _ = program.countP fun s => s.symbol?.isSome := List.length_filterMap_eq_countP
    _ ≤ program.countP Statement.isLoad := List.countP_mono_left fun s _ hs => by
      cases s with
      | load operand => rfl
      | label other => exact absurd hs (by simp [Statement.symbol?])
      | compute dest comp jump => exact absurd hs (by simp [Statement.symbol?])

theorem countP_isLoad_le (program : List Statement) : program.countP Statement.isLoad ≤ size program :=
  List.countP_mono_left fun s _ hs => by
    cases s with
    | load operand => rfl
    | label other => exact absurd hs (by simp [Statement.isLoad])
    | compute dest comp jump => rfl

theorem predefined?_lt {value : Nat} (h : predefined? name = some value) : value < Memory.maxSize := by
  have hall : predefined.all (fun entry => entry.2 < Memory.maxSize) = true := by decide
  obtain ⟨key, hmem⟩ : ∃ key, (key, value) ∈ predefined := by
    obtain ⟨before, after, hsplit, -⟩ := List.lookup_eq_some_iff.mp h
    exact ⟨name, by simp [hsplit]⟩
  exact of_decide_eq_true (List.all_eq_true.mp hall _ hmem)

/-- The addresses of variables follow each other from 16 on, so all of them are small exactly if there are few variables. -/
theorem variableAddress_lt_iff {bound : Nat} (hbound : variableBase ≤ bound) (uses : List Bytes) :
    (∀ name ∈ uses, variableAddress uses name < bound) ↔ variableBase + uses.toFinset.card ≤ bound := by
  constructor
  · intro h
    have hmaps : ∀ name ∈ uses.toFinset, variableAddress uses name ∈ Finset.Ico variableBase bound := by
      intro name hname
      exact Finset.mem_Ico.mpr ⟨Nat.le_add_right _ _, h name (List.mem_toFinset.mp hname)⟩
    have hcard := Finset.card_le_card_of_injOn (variableAddress uses) hmaps fun x hx y hy =>
      variableAddress_injOn (List.mem_toFinset.mp hx) (List.mem_toFinset.mp hy)
    rw [Nat.card_Ico] at hcard
    omega
  · intro h name hname
    exact Nat.lt_of_lt_of_le (variableAddress_lt hname) h

/-! ## Values of symbols -/

theorem symbol_cases (program : List Statement) (name : Bytes) : (∃ value, predefined? name = some value) ∨
    predefined? name = none ∧ name ∈ labelNames program ∨ isVariable program name = true := by
  cases hpre : predefined? name with
  | some value => exact .inl ⟨value, rfl⟩
  | none =>
    by_cases hlabel : name ∈ labelNames program
    · exact .inr (.inl ⟨rfl, hlabel⟩)
    · exact .inr (.inr (isVariable_iff.mpr ⟨hpre, hlabel⟩))

theorem symbolValue_lt (hsize : size program ≤ Image.maxInstructions) (h : .load (.symbol name) ∈ program) :
    symbolValue program name < 65536 := by
  have hmax : Image.maxInstructions = 32768 := rfl
  have hbase : variableBase = 16 := rfl
  rcases symbol_cases program name with ⟨value, hpre⟩ | ⟨hfree, hlabel⟩ | hvariable
  · have hlt := predefined?_lt hpre
    simp only [symbolValue, hpre]
    exact Nat.lt_trans hlt (by decide)
  · rw [symbolValue_of_label hfree hlabel]
    have hle := labelAddress_le program name
    omega
  · have hlt := variableAddress_lt (List.mem_toFinset.mp (mem_variableNames.mpr ⟨h, hvariable⟩))
    have hcard := (card_variableNames_le program).trans (countP_isLoad_le program)
    rw [symbolValue_of_variable hvariable]
    unfold variableNames at hcard
    omega

/-- All symbols that a program loads fit fifteen bits exactly if no label among them stands behind the last of 32768
instructions, and no variable is the 32753rd. -/
theorem symbolValue_lt_iff (hfree : ∀ name ∈ labelNames program, predefined? name = none) :
    (∀ name, .load (.symbol name) ∈ program → symbolValue program name < Memory.maxSize) ↔
      (∀ name ∈ labelNames program, .load (.symbol name) ∈ program → labelAddress program name < Image.maxInstructions) ∧
        variableBase + (variableNames program).card ≤ Memory.maxSize := by
  rw [variableNames, ← variableAddress_lt_iff (by decide)]
  constructor
  · intro h
    constructor
    · intro name hlabel hload
      rw [← symbolValue_of_label (hfree name hlabel) hlabel]
      exact h name hload
    · intro name huse
      obtain ⟨hload, hvariable⟩ := mem_variableNames.mp (List.mem_toFinset.mpr huse)
      rw [← symbolValue_of_variable hvariable]
      exact h name hload
  · rintro ⟨hlabels, huses⟩ name hload
    rcases symbol_cases program name with ⟨value, hpre⟩ | ⟨hnone, hlabel⟩ | hvariable
    · have hlt := predefined?_lt hpre
      simpa only [symbolValue, hpre] using hlt
    · rw [symbolValue_of_label hnone hlabel]
      exact hlabels name hlabel hload
    · rw [symbolValue_of_variable hvariable]
      exact huses name (List.mem_toFinset.mp (mem_variableNames.mpr ⟨hload, hvariable⟩))

/-! ## Words -/

/-- The statement with number `k` has become an instruction that loads what it is about to load. -/
def LoadsAt (rom : Array Instruction) (program : List Statement) (k : Nat) (operand : Operand) : Prop :=
  ∃ w, rom[size (program.take k)]? = some w ∧ w.isLoad = true ∧ w.value.toNat = operand.amount (symbolValue program)

theorem toNat_word {operand : Operand} (hsize : size program ≤ Image.maxInstructions) (h : .load operand ∈ program)
    (hreadable : (Statement.load operand).Readable) :
    (operand.word (symbolValue program)).toNat = operand.amount (symbolValue program) := by
  cases operand with
  | number n => exact Word.toNat_ofInt hreadable
  | symbol name => exact Nat.mod_eq_of_lt (symbolValue_lt hsize h)

theorem loadsAt_iff {rom : Array Instruction} {k : Nat} {operand : Operand} {w : Instruction}
    (hw : rom[size (program.take k)]? = some w) (hamount : w.toNat = operand.amount (symbolValue program)) :
    LoadsAt rom program k operand ↔ operand.amount (symbolValue program) < Memory.maxSize := by
  rw [← hamount]
  constructor
  · rintro ⟨w', hw', hload, -⟩
    obtain rfl := Option.some.inj (hw.symm.trans hw')
    exact (Instruction.isLoad_iff w).mp hload
  · intro hlt
    obtain ⟨hload, hvalue⟩ := Instruction.isLoad_of_lt hlt
    exact ⟨w, hw, hload, by rw [hvalue, hamount]⟩

theorem ReadAs.readable {texts : List Bytes} (h : ReadAs texts program) : ∀ s ∈ program, s.Readable := by
  induction h with
  | nil => simp
  | cons hread _ ih => exact List.forall_mem_cons.mpr ⟨Statement.readable_of_read hread, ih⟩

section

variable {rom : Array Instruction} (hreadable : ∀ s ∈ program, s.Readable) (hnodup : (labelNames program).Nodup)
  (hsize : size program ≤ Image.maxInstructions) (hwords : rom.toList = words (symbolValue program) program)

include hreadable hnodup hsize hwords

theorem exists_word_of_load {k : Nat} {operand : Operand} (hk : program[k]? = some (.load operand)) :
    ∃ w, rom[size (program.take k)]? = some w ∧ w.toNat = operand.amount (symbolValue program) := by
  have hmem := List.mem_of_getElem? hk
  have htake : program.take (k + 1) = program.take k ++ [.load operand] := by rw [List.take_add_one, hk]; rfl
  have hsplit : program = program.take k ++ [.load operand] ++ program.drop (k + 1) := by
    rw [← htake, List.take_append_drop]
  have hfree : ∀ name ∈ labelNames program, predefined? name = none :=
    fun name hname => (hreadable _ (mem_labelNames.mp hname)).2
  exact ⟨_, (installed_of_words hwords hnodup hfree hsplit).1, toNat_word hsize hmem (hreadable _ hmem)⟩

theorem forall_loadsAt_iff : (∀ k operand, program[k]? = some (.load operand) → LoadsAt rom program k operand) ↔
    ∀ name, .load (.symbol name) ∈ program → symbolValue program name < Memory.maxSize := by
  constructor
  · intro hall name hmem
    obtain ⟨k, hk⟩ := List.mem_iff_getElem?.mp hmem
    obtain ⟨w, hw, hamount⟩ := exists_word_of_load hreadable hnodup hsize hwords hk
    exact (loadsAt_iff hw hamount).mp (hall k _ hk)
  · intro hall k operand hk
    have hmem := List.mem_of_getElem? hk
    obtain ⟨w, hw, hamount⟩ := exists_word_of_load hreadable hnodup hsize hwords hk
    apply (loadsAt_iff hw hamount).mpr
    cases operand with
    | number n =>
      -- a number that can be written fits
      have hfits : 0 ≤ n ∧ n ≤ maxNumber := hreadable _ hmem
      have hmax : (maxNumber : Int) = 32767 := rfl
      show n.toNat < 32768
      omega
    | symbol name => exact hall name hmem

end

/-- The word of a load statement is the value of its operand. All of them are load instructions exactly if no label that is loaded
stands behind the last of 32768 instructions and there are at most 32752 variables. -/
theorem loads_fit_iff {source : Source} {rom : Array Instruction} (h : assemble name source = .ok rom) :
    ∃ program, ReadAs (Bytes.codes source.lines) program ∧
      (∀ k operand, program[k]? = some (.load operand) →
        ∃ w, rom[size (program.take k)]? = some w ∧ w.toNat = operand.amount (symbolValue program)) ∧
      ((∀ k operand, program[k]? = some (.load operand) → LoadsAt rom program k operand) ↔
        (∀ name ∈ labelNames program, .load (.symbol name) ∈ program → labelAddress program name < 32768) ∧
          (variableNames program).card ≤ 32752) := by
  obtain ⟨-, program, hread, hnodup, hsize, hwords⟩ := (assemble_eq_ok_iff _ _ _).mp h
  have hreadable := hread.readable
  refine ⟨program, hread, fun k operand hk => exists_word_of_load hreadable hnodup hsize hwords hk, ?_⟩
  have hcard : variableBase + (variableNames program).card ≤ Memory.maxSize ↔ (variableNames program).card ≤ 32752 := by
    show 16 + _ ≤ 32768 ↔ _
    omega
  rw [forall_loadsAt_iff hreadable hnodup hsize hwords,
    symbolValue_lt_iff fun name hname => (hreadable _ (mem_labelNames.mp hname)).2, hcard]
  rfl

/-- A variable, a label at the end of the program and a number. -/
theorem loads_fit_iff_program :
    let source := Source.ofBytes (ascii "@x\n@END\n@5\n(END)\n")
    ∃ rom, assemble [] source = .ok rom ∧ ∃ program, ReadAs (Bytes.codes source.lines) program ∧
      ∀ k operand, program[k]? = some (.load operand) → LoadsAt rom program k operand := by
  intro source
  have hread : ReadAs (Bytes.codes source.lines) [.load (.symbol (ascii "x")), .load (.symbol (ascii "END")),
      .load (.number 5), .label (ascii "END")] := by
    unfold ReadAs
    decide +kernel
  have hassemble : assemble [] source = .ok #[16, 3, 5] :=
    (assemble_eq_ok_iff _ _ _).mpr ⟨by decide +kernel, _, hread, by decide +kernel, by decide +kernel, by decide +kernel⟩
  obtain ⟨program, hread', -, hiff⟩ := loads_fit_iff hassemble
  obtain rfl := hread'.unique hread
  exact ⟨_, hassemble, _, hread, hiff.mpr ⟨by decide +kernel, by decide +kernel⟩⟩

/-! ## The label at the end -/

/-- Loads the label that stands behind its last instruction. -/
def loadEnd (n : Nat) : List Statement :=
  .load (.symbol (ascii "END")) :: List.replicate n (.compute {} .zero .never) ++ [.label (ascii "END")]

theorem mem_loadEnd {n : Nat} {s : Statement} (h : s ∈ loadEnd n) :
    s = .load (.symbol (ascii "END")) ∨ s = .compute {} .zero .never ∨ s = .label (ascii "END") := by
  simp only [loadEnd, List.cons_append, List.mem_cons, List.mem_append, List.mem_replicate, List.not_mem_nil, or_false] at h
  tauto

theorem text_loadEnd (n : Nat) : ((loadEnd n).map Statement.text).flatMap (· ++ [10]) =
    ascii "@END\n" ++ (List.replicate n (ascii "0\n")).flatten ++ ascii "(END)\n" := by
  have hload : Statement.text (.load (.symbol (ascii "END"))) ++ [10] = ascii "@END\n" := by decide
  have hzero : Statement.text (.compute {} .zero .never) ++ [10] = ascii "0\n" := by decide
  have hlabel : Statement.text (.label (ascii "END")) ++ [10] = ascii "(END)\n" := by decide
  simp only [loadEnd, List.cons_append, List.map_cons, List.map_append, List.map_replicate, List.flatMap_cons,
    List.flatMap_append, List.flatMap_replicate, List.map_nil, List.flatMap_nil, List.append_nil]
  rw [hload, hzero, hlabel, List.append_assoc]

theorem labelNames_loadEnd (n : Nat) : labelNames (loadEnd n) = [ascii "END"] := by
  simp [loadEnd, labelNames, Statement.label?, List.filterMap_cons, List.filterMap_replicate]

theorem words_loadEnd (value : Bytes → Nat) (n : Nat) :
    words value (loadEnd n) = (value (ascii "END")).toUInt16 :: List.replicate n 0xEA80 := by
  have hzero : Instruction.compute Comp.zero.bits (Dest.bits {}) Jump.never.bits = 0xEA80 := rfl
  simp [words, loadEnd, List.filterMap_cons, hzero, Statement.word?]

theorem symbolValue_loadEnd (n : Nat) : symbolValue (loadEnd n) (ascii "END") = n + 1 := by
  have hnodup : (labelNames (loadEnd n)).Nodup := by
    rw [labelNames_loadEnd]
    exact List.nodup_singleton _
  rw [loadEnd] at hnodup ⊢
  rw [symbolValue_label hnodup (by decide)]
  simp [size, List.countP_cons, List.countP_replicate, Statement.isInstruction]

theorem assemble_loadEnd {n : Nat} (hn : n < 32768) :
    assemble [] (Source.ofBytes (((loadEnd n).map Statement.text).flatMap (· ++ [10]))) =
      .ok ((n + 1).toUInt16 :: List.replicate n 0xEA80).toArray := by
  rw [assemble_of_readable [], words_loadEnd, symbolValue_loadEnd]
  · intro s hs
    rcases mem_loadEnd hs with rfl | rfl | rfl
    · exact (by decide : isSymbol (ascii "END") = true)
    · trivial
    · exact (by decide : isSymbol (ascii "END") = true ∧ predefined? (ascii "END") = none)
  · rw [labelNames_loadEnd]
    exact List.nodup_singleton _
  · rw [← length_words (fun _ => 0), words_loadEnd, List.length_cons, List.length_replicate]
    exact hn
  · intro s hs
    rcases mem_loadEnd hs with rfl | rfl | rfl <;> decide

/-- A label behind the last of 32768 instructions does not fit: the statement that loads it becomes a compute instruction. -/
theorem label_behind_last_instruction :
    let text := ascii "@END\n" ++ (List.replicate 32767 (ascii "0\n")).flatten ++ ascii "(END)\n"
    ∃ rom, assemble [] (Source.ofBytes text) = .ok rom ∧ rom.size = 32768 ∧
      rom[0]? = some 0x8000 ∧ Instruction.isLoad 0x8000 = false := by
  intro text
  have htext : text = ((loadEnd 32767).map Statement.text).flatMap (· ++ [10]) := (text_loadEnd 32767).symm
  rw [htext]
  refine ⟨_, assemble_loadEnd (by decide), ?_, ?_, by decide⟩
  · rw [List.size_toArray, List.length_cons, List.length_replicate]
  · rw [List.getElem?_toArray, List.getElem?_cons_zero]
    decide

end HackPlatform.Assembly
