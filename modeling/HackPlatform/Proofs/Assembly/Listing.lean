import Mathlib.Tactic.IntervalCases
import HackPlatform.Assembly.Listing
import HackPlatform.Proofs.Machine.Installed
import HackPlatform.Proofs.Stream.Order

/-!
# Listings are read back

The text of an instruction is that of a statement (`statement?`), unless its comp field belongs to no computation; then the text
holds a question mark and no statement is written so. Bits 13 and 14 of a compute instruction are not shown, and
the assembler sets them. So the listing of a program is assembled exactly if all comp fields are known, and what comes back is
the program with these two bits set (`assemble_text_eq_ok_iff`). A whole listing has the same lines with an address before each
(`writeAll_eq`).
-/

namespace HackPlatform

namespace Instruction

theorem or_eq_left_iff (x y : UInt16) : x ||| y = x ↔ x &&& y = y := by
  rw [← UInt16.toBitVec_inj, ← UInt16.toBitVec_inj, UInt16.toBitVec_or, UInt16.toBitVec_and]
  constructor
  · intro h
    rw [← h]
    ext j hj
    simpa using Or.inr
  · intro h
    rw [← h]
    ext j hj
    simpa using fun hx _ => hx

theorem compute_fields (i : Instruction) : compute i.comp i.dest i.jump = i ||| 0xE000 := by
  rw [← UInt16.toBitVec_inj]
  simp only [compute, comp, dest, jump]
  ext j hj
  interval_cases j <;> simp

theorem and_seven_cases {P : UInt16 → Prop} (h : ∀ n < 8, P (Nat.toUInt16 n)) (x : UInt16) : P (x &&& 7) := by
  have hlt : (x &&& 7).toNat < 8 := by
    rw [UInt16.toNat_and]
    exact Nat.lt_of_le_of_lt Nat.and_le_right (by decide)
  simpa using h _ hlt

end Instruction

namespace Assembly

theorem Comp.ofBits?_eq_some_iff {bits : UInt16} {comp : Comp} : ofBits? bits = some comp ↔ comp.bits = bits := by
  constructor
  · intro h
    have hbits := List.find?_some h
    exact eq_of_beq hbits
  · rintro rfl
    cases comp <;> decide

theorem Dest.ofBits_dest (i : Instruction) :
    (ofBits i.dest).bits = i.dest ∧ ((ofBits i.dest).isNone = true ↔ i.dest = 0) :=
  Instruction.and_seven_cases (P := fun b => (ofBits b).bits = b ∧ ((ofBits b).isNone = true ↔ b = 0)) (by decide) (i >>> 3)

theorem Jump.ofBits_jump (i : Instruction) :
    (ofBits i.jump).bits = i.jump ∧ (ofBits i.jump = never ↔ i.jump = 0) :=
  Instruction.and_seven_cases (P := fun b => (ofBits b).bits = b ∧ (ofBits b = never ↔ b = 0)) (by decide) i

namespace Listing

/-! ## Instructions as statements -/

/-- The text of an instruction. -/
def instructionText (i : Instruction) : Bytes := (texts i).flatten

/-- The statement that an instruction is shown as; there is none if its comp field belongs to no computation. -/
def statement? (i : Instruction) : Option Statement :=
  if i.isLoad then some (.load (.number i.value.toNat))
  else (Comp.ofBits? i.comp).map fun comp => .compute (Dest.ofBits i.dest) comp (Jump.ofBits i.jump)

/-- The instruction that is read back: in a compute instruction, the bits that its text does not show are set. -/
def shown (i : Instruction) : Instruction := if i.isLoad then i else i ||| 0xE000

theorem text_of_statement? {i : Instruction} {s : Statement} (h : statement? i = some s) :
    instructionText i = s.text ∧ s.Readable := by
  unfold statement? at h
  unfold instructionText texts
  by_cases hload : i.isLoad = true
  · rw [if_pos hload] at h ⊢
    obtain rfl := Option.some.inj h
    have hlt := (Instruction.isLoad_iff i).mp hload
    refine ⟨by simp [Statement.text], Int.natCast_nonneg _, ?_⟩
    rw [(Instruction.isLoad_of_lt hlt).2]
    exact Int.ofNat_le.mpr (Nat.le_of_lt_succ hlt)
  · rw [if_neg hload] at h ⊢
    obtain ⟨comp, hcomp, rfl⟩ := Option.map_eq_some_iff.mp h
    have hdest := (Dest.ofBits_dest i).2
    have hjump := (Jump.ofBits_jump i).2
    refine ⟨?_, trivial⟩
    rw [compText, hcomp, Statement.text, Statement.computeText]
    simp only [hdest, hjump]
    split <;> split <;> simp

theorem word?_of_statement? {i : Instruction} {s : Statement} (h : statement? i = some s) (value : Bytes → Nat) :
    s.word? value = some (shown i) ∧ s.label? = none := by
  unfold statement? at h
  unfold shown
  by_cases hload : i.isLoad = true
  · rw [if_pos hload] at h ⊢
    obtain rfl := Option.some.inj h
    have hlt := (Instruction.isLoad_iff i).mp hload
    refine ⟨congrArg some ?_, rfl⟩
    rw [(Instruction.isLoad_of_lt hlt).2, ← UInt16.toNat_inj]
    exact Word.toNat_ofInt ⟨Int.natCast_nonneg _, Int.ofNat_le.mpr (Nat.le_of_lt_succ hlt)⟩
  · rw [if_neg hload] at h ⊢
    obtain ⟨comp, hcomp, rfl⟩ := Option.map_eq_some_iff.mp h
    refine ⟨congrArg some ?_, rfl⟩
    rw [Comp.ofBits?_eq_some_iff.mp hcomp, (Dest.ofBits_dest i).1, (Jump.ofBits_jump i).1, Instruction.compute_fields]

/-! ## Texts without a statement -/

theorem not_question_of_written {text : Bytes} {s : Statement} (h : Written text s) : 63 ∉ text := by
  have hsymbol : ∀ {name : Bytes}, isSymbol name = true → 63 ∉ name := fun h => not_mem_of_isWordOf h (by decide)
  cases h with
  | label valid free => simp [hsymbol valid]
  | @number digits nonempty all fits =>
    rw [List.mem_cons, not_or]
    exact ⟨by decide, fun hmem => absurd (all 63 hmem) (by decide)⟩
  | symbol valid => simp [hsymbol (valid.elim Statement.isSymbol_of_predefined id)]
  | @compute target operation condition dest comp jump target_text named condition_text =>
    have htarget : 63 ∉ target := by
      cases target_text with
      | absent => simp
      | letters _ _ hnamed =>
        intro hmem
        rcases List.mem_append.mp hmem with hmem | hmem
        · rcases hnamed 63 hmem with h | h | h <;> exact absurd h (by decide)
        · exact absurd (List.mem_singleton.mp hmem) (by decide)
    have hoperation : 63 ∉ operation := by
      rcases Comp.isNamed_iff.mp named with rfl | ⟨word, hword, rfl⟩
      · cases comp <;> decide
      · cases comp <;> simp only [Comp.swapped?, reduceCtorEq, Option.some.injEq] at hword <;> subst hword <;> decide
    have hcondition : 63 ∉ condition := by
      cases condition_text with
      | absent => simp
      | named jumps => cases jump <;> decide
    simp [htarget, hoperation, hcondition]

/-- The text of an instruction is read as the statement that it is shown as, and not at all if there is none. -/
theorem read_instructionText (i : Instruction) (s : Statement) :
    Statement.read (instructionText i) = .ok s ↔ statement? i = some s := by
  cases hi : statement? i with
  | some t =>
    obtain ⟨htext, hreadable⟩ := text_of_statement? hi
    rw [htext, Statement.read_text_iff hreadable.wellNamed, Option.some.injEq]
    exact ⟨fun h => h.1.symm, fun h => ⟨h.symm, hreadable⟩⟩
  | none =>
    -- the comp field is shown with a question mark
    have hquestion : 63 ∈ instructionText i := by
      unfold statement? at hi
      split at hi
      · exact absurd hi (by simp)
      · rename_i hload
        rw [instructionText, texts, if_neg hload, compText, Option.map_eq_none_iff.mp hi]
        simp
    refine ⟨fun h => ?_, fun h => absurd h (by simp)⟩
    exact absurd hquestion (not_question_of_written ((Statement.read_eq_ok_iff _ _).mp h))

/-! ## Lines -/

theorem compText_isPlain (bits : UInt16) :
    (compText bits).all Bytes.isPlain = true ∧ (compText bits).length ≤ 8 ∧ compText bits ≠ [] := by
  unfold compText
  cases Comp.ofBits? bits with
  | some comp =>
    show comp.name.all Bytes.isPlain = true ∧ comp.name.length ≤ 8 ∧ comp.name ≠ []
    cases comp <;> decide
  | none =>
    refine ⟨?_, ?_, List.cons_ne_nil _ _⟩
    · simp only [List.all_cons, Bytes.all_isPlain_binary]
      decide
    · simp only [List.length_cons, Numeral.length_binary]
      decide

theorem instructionText_isPlain (i : Instruction) : (instructionText i).all Bytes.isPlain = true ∧
    (instructionText i).length ≤ Source.lineLimit ∧ instructionText i ≠ [] := by
  unfold instructionText texts
  have hlimit : Source.lineLimit = 65535 := rfl
  split
  · rename_i hload
    have hlt := (Instruction.isLoad_iff i).mp hload
    rw [(Instruction.isLoad_of_lt hlt).2]
    have hplain := Statement.all_isPlain_ofInt i.toNat
    have hlength := Numeral.length_ofNat_le i.toNat
    have hmax : Memory.maxSize = 32768 := rfl
    rw [Numeral.ofInt_natCast] at hplain
    simp only [List.flatten_cons, List.flatten_nil, List.append_nil, List.all_append, hplain, List.length_append,
      List.length_singleton, Bool.and_true]
    exact ⟨by decide, by omega, by simp⟩
  · -- at most four bytes for the destination, eight for the computation and four for the jump
    have hdest : ∀ b : UInt16, ((if b = 0 then [] else [(Dest.ofBits b).name, [61]]) : List Bytes).flatten.all
        Bytes.isPlain = true ∧ ((if b = 0 then [] else [(Dest.ofBits b).name, [61]]) : List Bytes).flatten.length ≤ 4 := by
      intro b
      split
      · decide
      · obtain ⟨a, d, m⟩ := Dest.ofBits b
        cases a <;> cases d <;> cases m <;> decide
    have hjump : ∀ b : UInt16, ((if b = 0 then [] else [[59], (Jump.ofBits b).name]) : List Bytes).flatten.all
        Bytes.isPlain = true ∧ ((if b = 0 then [] else [[59], (Jump.ofBits b).name]) : List Bytes).flatten.length ≤ 4 := by
      intro b
      split
      · decide
      · cases Jump.ofBits b <;> decide
    obtain ⟨hcomp, hcomp', hne⟩ := compText_isPlain i.comp
    obtain ⟨hdest, hdest'⟩ := hdest i.dest
    obtain ⟨hjump, hjump'⟩ := hjump i.jump
    simp only [List.flatten_append, List.flatten_singleton, List.all_append, hdest, hcomp, hjump, List.length_append]
    exact ⟨rfl, by omega, by simp [hne]⟩

/-! ## Programs -/

/-- What is written for the instruction at an address, to a sink without a limit. -/
def written (rom : Array Instruction) (pc : Nat) : Bytes :=
  match writeOne? {} rom pc with
  | some (sink, _) => sink.contents
  | none => []

/-- The instructions of a program, one a line. -/
def text (rom : Array Instruction) : Bytes := (List.range rom.size).flatMap fun pc => written rom pc ++ [10]

theorem writeOne?_of_lt {rom : Array Instruction} {pc : Nat} (h : pc < rom.size) :
    ∃ sink, writeOne? {} rom pc = some (sink, none) ∧ sink.contents = instructionText rom[pc] := by
  obtain ⟨hcontents, hnone⟩ := Stream.emit_of_unlimited (s := {}) rfl (texts rom[pc])
  refine ⟨(Stream.emit {} (texts rom[pc])).1, ?_, hcontents⟩
  simp only [writeOne?, Int.natCast_nonneg, if_true, Int.toNat_natCast, Array.getElem?_eq_getElem h, Option.map_some]
  rw [← hnone]

theorem written_of_lt {rom : Array Instruction} {pc : Nat} (h : pc < rom.size) : written rom pc = instructionText rom[pc] := by
  obtain ⟨sink, hwrite, hcontents⟩ := writeOne?_of_lt h
  rw [written, hwrite, ← hcontents]

theorem text_eq (rom : Array Instruction) : text rom = (rom.toList.map instructionText).flatMap (· ++ [10]) := by
  have hlines : (List.range rom.size).map (written rom) = rom.toList.map instructionText := by
    refine List.ext_getElem (by simp) fun pc h _ => ?_
    have hpc : pc < rom.size := by simpa using h
    simp only [List.getElem_map, List.getElem_range, Array.getElem_toList, written_of_lt hpc]
  rw [← hlines, List.flatMap_map]
  rfl

/-! ## Addresses -/

/-- What stands behind the address of a line. -/
def withoutAddress (line : Bytes) : Bytes := (line.dropWhile (· != 9)).tail

theorem exists_addressText (address : Int) : ∃ column, addressText address = column ++ [9] ∧ 9 ∉ column ∧ 10 ∉ column := by
  have hdigits : ∀ b, Bytes.isPlain b = false → b ∉ Numeral.ofInt address := by
    intro b hb hmem
    have hplain := List.all_eq_true.mp (Statement.all_isPlain_ofInt address) b hmem
    rw [hb] at hplain
    exact Bool.noConfusion hplain
  have htab := hdigits 9 (by decide)
  have hfeed := hdigits 10 (by decide)
  refine ⟨_, rfl, ?_, ?_⟩ <;> unfold Numeral.padLeft <;> split <;> simp [htab, hfeed]

theorem withoutAddress_append (address : Int) (text : Bytes) : withoutAddress (addressText address ++ text) = text := by
  obtain ⟨column, hcolumn, htab, -⟩ := exists_addressText address
  have hskip : ∀ b ∈ column, (b != 9) = true := by
    intro b hb
    exact bne_iff_ne.mpr fun heq => htab (heq ▸ hb)
  rw [hcolumn, List.append_assoc, withoutAddress, List.dropWhile_append_of_pos hskip]
  rfl

theorem toInt_address {base : Int64} {pc : Nat} (h : base.toInt + pc < 2 ^ 63) :
    (base + Int64.ofNat pc).toInt = base.toInt + pc := by
  have hlow := base.le_toInt
  have hsize : (Int64.size : Int) = 2 ^ 64 := rfl
  rw [Int64.toInt_add, Int64.toInt_ofNat', Int.add_bmod_bmod, Int.bmod_eq_of_le (by omega) (by omega)]

/-- The line of a listing for the instruction at an address. -/
def line (base : Int64) (rom : Array Instruction) (pc : Nat) : Bytes :=
  addressText (base + Int64.ofNat pc).toInt ++ written rom pc

theorem flatten_allTexts (base : Int64) (rom : Array Instruction) :
    (allTexts base rom).flatten = ((List.range rom.size).map (line base rom)).flatMap (· ++ [10]) := by
  have hlines : (List.range rom.size).map (line base rom) =
      rom.toList.zipIdx.map fun x => addressText (base + Int64.ofNat x.2).toInt ++ instructionText x.1 := by
    refine List.ext_getElem (by simp) fun pc h _ => ?_
    have hpc : pc < rom.size := by simpa using h
    simp [line, written_of_lt hpc]
  rw [hlines, List.flatMap_map, allTexts]
  induction rom.toList.zipIdx with
  | nil => rfl
  | cons x rest ih =>
    rw [List.flatMap_cons, List.flatten_append, ih, List.flatMap_cons]
    simp [lineTexts, instructionText]

theorem not_newline_line (base : Int64) {rom : Array Instruction} {pc : Nat} (h : pc < rom.size) : 10 ∉ line base rom pc := by
  obtain ⟨column, hcolumn, -, hfeed⟩ := exists_addressText (base + Int64.ofNat pc).toInt
  have htext : 10 ∉ instructionText rom[pc] := Bytes.not_mem_of_plain (instructionText_isPlain rom[pc]).1
  rw [line, hcolumn, written_of_lt h]
  simp [hfeed, htext]

/-- A listing is written whole. It has a line for each instruction, with its address, which counts from the base on, and its text.
Without the addresses it is the text that is read back. -/
theorem writeAll_eq (base : Int64) (rom : Array Instruction) :
    ∃ sink, writeAll {} base rom = (sink, none) ∧ sink.contents.splitOn 10 = (List.range rom.size).map (line base rom) ++ [[]] ∧
      (∀ pc : Nat, base.toInt + pc < 2 ^ 63 → line base rom pc = addressText (base.toInt + pc) ++ written rom pc) ∧
      (sink.contents.splitOn 10).dropLast.flatMap (withoutAddress · ++ [10]) = text rom := by
  obtain ⟨hcontents, hnone⟩ := Stream.emit_of_unlimited (s := {}) rfl (allTexts base rom)
  have hsplit : (writeAll {} base rom).1.contents.splitOn 10 = (List.range rom.size).map (line base rom) ++ [[]] := by
    rw [writeAll, hcontents, flatten_allTexts]
    exact Bytes.splitOn_flatMap_lines (by simpa using fun pc hpc => not_newline_line base hpc)
  refine ⟨_, Prod.ext rfl hnone, hsplit, fun pc hpc => by rw [line, toInt_address hpc], ?_⟩
  rw [hsplit, List.dropLast_concat, List.flatMap_map]
  exact List.flatMap_congr fun pc _ => by rw [line, withoutAddress_append]

/-! ## Programs that are read back -/

theorem readAs_iff (instructions : List Instruction) (program : List Statement) :
    ReadAs (instructions.map instructionText) program ↔
      List.Forall₂ (fun i s => statement? i = some s) instructions program := by
  rw [ReadAs, List.forall₂_map_left_iff]
  simp only [read_instructionText]

theorem exists_statements_iff (instructions : List Instruction) :
    (∃ program, List.Forall₂ (fun i s => statement? i = some s) instructions program) ↔
      ∀ i ∈ instructions, (statement? i).isSome = true := by
  induction instructions with
  | nil => simp
  | cons i rest ih =>
    rw [List.forall_mem_cons, ← ih, Option.isSome_iff_exists]
    constructor
    · rintro ⟨program, hprogram⟩
      cases hprogram with
      | cons hi hrest => exact ⟨⟨_, hi⟩, _, hrest⟩
    · rintro ⟨⟨s, hi⟩, program, hrest⟩
      exact ⟨s :: program, .cons hi hrest⟩

theorem words_of_statements {instructions : List Instruction} {program : List Statement}
    (h : List.Forall₂ (fun i s => statement? i = some s) instructions program) (value : Bytes → Nat) :
    words value program = instructions.map shown ∧ labelNames program = [] := by
  induction h with
  | nil => exact ⟨rfl, rfl⟩
  | cons hi _ ih =>
    obtain ⟨hword, hlabel⟩ := word?_of_statement? hi value
    unfold words labelNames at ih ⊢
    rw [List.filterMap_cons_some hword, List.filterMap_cons_none hlabel, ih.1, ih.2]
    exact ⟨rfl, rfl⟩

/-- A listing is assembled exactly if all its comp fields are known. The bits that it does not show come back set. -/
theorem assemble_text_eq_ok_iff (name : Bytes) {rom rom' : Array Instruction} (hsize : rom.size ≤ Image.maxInstructions) :
    assemble name (Source.ofBytes (text rom)) = .ok rom' ↔
      (∀ i ∈ rom, (statement? i).isSome = true) ∧ rom' = rom.map shown := by
  have hplain : ∀ line ∈ rom.toList.map instructionText, line.all Bytes.isPlain = true := by
    simpa using fun i _ => (instructionText_isPlain i).1
  have hlines : ∀ line ∈ (text rom).splitOn 10, line.length ≤ Source.lineLimit := by
    rw [text_eq, Bytes.splitOn_flatMap_lines fun line hmem => Bytes.not_mem_of_plain (hplain line hmem)]
    simpa [or_imp, forall_and] using fun i _ => (instructionText_isPlain i).2.1
  have hcodes : Bytes.codes ((text rom).splitOn 10) = rom.toList.map instructionText := by
    rw [text_eq]
    exact Bytes.codes_of_plain hplain (by simpa using fun i _ => (instructionText_isPlain i).2.2)
  rw [assemble_eq_ok_iff, Bytes.codes_lines _ hlines, hcodes]
  simp only [(Bytes.fault_ofBytes_eq_none_iff _).mpr hlines, true_and, readAs_iff]
  constructor
  · rintro ⟨program, hprogram, -, -, hwords⟩
    rw [(words_of_statements hprogram _).1, ← Array.toList_map, Array.toList_inj] at hwords
    exact ⟨by simpa using (exists_statements_iff _).mp ⟨program, hprogram⟩, hwords⟩
  · rintro ⟨hknown, rfl⟩
    obtain ⟨program, hprogram⟩ := (exists_statements_iff rom.toList).mpr (by simpa using hknown)
    obtain ⟨hwords, hlabels⟩ := words_of_statements hprogram (symbolValue program)
    have hcount : size program = rom.size := by
      rw [← length_words (symbolValue program), hwords, List.length_map, Array.length_toList]
    exact ⟨program, hprogram, by simp [hlabels], hcount ▸ hsize, by simp [hwords]⟩

theorem isSome_statement?_iff (i : Instruction) :
    (statement? i).isSome = true ↔ i.isLoad = true ∨ ∃ comp ∈ Comp.all, comp.bits = i.comp := by
  unfold statement?
  by_cases hload : i.isLoad = true
  · simp [hload]
  · simp only [hload, if_false, Bool.false_eq_true, Option.isSome_map, false_or, Comp.ofBits?, List.find?_isSome,
      beq_iff_eq]

theorem shown_eq_iff (i : Instruction) : shown i = i ↔ i.isLoad = true ∨ i &&& 0xE000 = 0xE000 := by
  unfold shown
  by_cases hload : i.isLoad = true
  · simp [hload]
  · simp only [hload, if_false, Bool.false_eq_true, false_or, Instruction.or_eq_left_iff]

/-- A program comes back from its listing exactly if each of its instructions loads, or has its three upper bits set and a comp
field that belongs to a computation. Listing an instruction of the program never fails. -/
theorem assemble_text_eq_self_iff (name : Bytes) (rom : Array Instruction) (hsize : rom.size ≤ Image.maxInstructions) :
    (∀ pc < rom.size, ∃ sink, writeOne? {} rom pc = some (sink, none)) ∧
      (assemble name (Source.ofBytes (text rom)) = .ok rom ↔
        ∀ i ∈ rom, i.isLoad = true ∨ (i &&& 0xE000 = 0xE000 ∧ ∃ comp ∈ Comp.all, comp.bits = i.comp)) := by
  constructor
  · intro pc hpc
    obtain ⟨sink, hwrite, -⟩ := writeOne?_of_lt hpc
    exact ⟨sink, hwrite⟩
  · have hmap : rom = rom.map shown ↔ ∀ i ∈ rom, shown i = i := by
      conv_lhs => rw [← Array.map_id rom, Array.map_map]
      rw [eq_comm, Array.map_inj_left]
      rfl
    rw [assemble_text_eq_ok_iff name hsize, hmap, ← forall₂_and]
    simp only [isSome_statement?_iff, shown_eq_iff, ← or_and_left, and_comm]

/-- Loads, a computation with all its parts and one without any come back. So do not a word without its upper bits and one with an
unknown comp field. -/
theorem assemble_text_eq_self_words :
    let rom : Array Instruction := #[7, 0x7FFF, 0xF57D, 0xEA80]
    rom.size ≤ Image.maxInstructions ∧ assemble [] (Source.ofBytes (text rom)) = .ok rom ∧
      assemble [] (Source.ofBytes (text #[0x9C10])) ≠ .ok #[0x9C10] ∧
      assemble [] (Source.ofBytes (text #[0xE040])) ≠ .ok #[0xE040] := by
  intro rom
  refine ⟨by decide, (assemble_text_eq_self_iff [] rom (by decide)).2.mpr ?_, fun h => ?_, fun h => ?_⟩
  · intro i hi
    simp only [rom, List.mem_toArray, List.mem_cons, List.not_mem_nil, or_false] at hi
    rcases hi with rfl | rfl | rfl | rfl <;> decide
  · exact absurd ((assemble_text_eq_self_iff [] _ (by decide)).2.mp h 0x9C10 (by simp)) (by decide)
  · exact absurd ((assemble_text_eq_self_iff [] _ (by decide)).2.mp h 0xE040 (by simp)) (by decide)

end Listing

end Assembly

end HackPlatform
