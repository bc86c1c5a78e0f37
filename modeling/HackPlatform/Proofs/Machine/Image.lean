import Mathlib.Data.Set.List
import HackPlatform.Machine.Image
import HackPlatform.Proofs.Stream.Order
import HackPlatform.Proofs.Text.Lines

/-!
# Images are read back

A text of sixteen binary digits is read as an instruction exactly if the instruction is written so
(`readDigits?_eq_some_iff`). What an image says is left when the white space at the ends of its lines is cut off and
empty lines are dropped (`visible`). An image is read as a program exactly if it says the lines of the program, and
these are not too many (`decode_eq_ok_iff`). Both directions of the codec (`codec_exact`) follow from this: what is
written for a program is read back (`decode_written`), and a text is accepted exactly if each of its visible lines is a
word (`exists_decode_iff`).
-/

namespace HackPlatform.Image

/-! ## Lines -/

/-- Is the text made of sixteen binary digits? -/
def IsWord (text : Bytes) : Prop := text.length = 16 ∧ ∀ b ∈ text, b = 48 ∨ b = 49

theorem isWord_digits (i : Instruction) : IsWord (digits i) :=
  ⟨Numeral.length_binary 16 i.toNat, fun _ hb => Numeral.mem_binary hb⟩

theorem readDigits?_eq (text : Bytes) [Decidable (IsWord text)] :
    readDigits? text = if IsWord text then some (Numeral.bits text).toUInt16 else none := by
  have hiff : (text.length = 16 && text.all fun b => b = 48 || b = 49) = true ↔ IsWord text := by
    simp [IsWord]
  unfold readDigits?
  simp only [hiff]
  rfl

/-- The bits are taken off a word from the right when it is written, and put together from the left when it is read. -/
theorem readDigits?_eq_some_iff {text : Bytes} {i : Instruction} : readDigits? text = some i ↔ text = digits i := by
  classical
  rw [readDigits?_eq]
  constructor
  · intro h
    split at h
    · rename_i hword
      obtain rfl := Option.some.inj h
      have hlt : Numeral.bits text < 2 ^ 16 := hword.1 ▸ Numeral.bits_lt hword.2
      have hvalue : (Numeral.bits text).toUInt16.toNat = Numeral.bits text := Nat.mod_eq_of_lt hlt
      have htext := Numeral.binary_bits hword.2
      rw [digits, hvalue, ← hword.1, htext]
    · exact absurd h (by simp)
  · intro h
    have hlt : i.toNat < 2 ^ 16 := i.toNat_lt
    rw [h, if_pos (isWord_digits i), digits, Numeral.bits_binary, Nat.mod_eq_of_lt hlt]
    exact congrArg some UInt16.ofNat_toNat

theorem isWord_iff {text : Bytes} : IsWord text ↔ ∃ i, text = digits i := by
  classical
  constructor
  · intro hword
    exact ⟨_, readDigits?_eq_some_iff.mp (by rw [readDigits?_eq, if_pos hword])⟩
  · rintro ⟨i, h⟩
    rw [h]
    exact isWord_digits i

theorem digits_injective {i j : Instruction} (h : digits i = digits j) : i = j :=
  Option.some.inj ((readDigits?_eq_some_iff.mpr rfl).symm.trans (readDigits?_eq_some_iff.mpr h))

/-! ## Images -/

/-- What lines say: the text of each without the white space at its ends, empty ones left out. -/
def visible (lines : List Bytes) : List Bytes := (lines.map Bytes.trim).filter (!·.isEmpty)

theorem decodeLines_eq_ok_iff (number : Nat) {done rom : Array Instruction} (hdone : done.size ≤ maxInstructions)
    (lines : List Bytes) :
    decodeLines number done lines = .ok rom ↔
      ∃ added, rom.toList = done.toList ++ added ∧ visible lines = added.map digits ∧ rom.size ≤ maxInstructions := by
  induction lines generalizing number done with
  | nil =>
    simp only [decodeLines, visible, List.map_nil, List.filter_nil, Except.ok.injEq]
    constructor
    · rintro rfl
      exact ⟨[], by simp, rfl, hdone⟩
    · rintro ⟨added, hrom, hadded, -⟩
      rw [List.map_eq_nil_iff.mp hadded.symm, List.append_nil] at hrom
      exact (Array.toList_inj.mp hrom).symm
  | cons line rest ih =>
    rw [decodeLines]
    by_cases hblank : Bytes.trim line = []
    · have hvisible : visible (line :: rest) = visible rest := by simp [visible, hblank]
      simp only [hblank, List.isEmpty_nil, if_true, hvisible]
      exact ih (number + 1) hdone
    · have hvisible : visible (line :: rest) = Bytes.trim line :: visible rest := by simp [visible, hblank]
      simp only [List.isEmpty_iff, hblank, if_false, hvisible]
      cases hread : readDigits? (Bytes.trim line) with
      | none =>
        refine ⟨fun h => absurd h (by simp), fun ⟨added, _, hadded, _⟩ => ?_⟩
        obtain ⟨i, _, _, hi, _⟩ := List.map_eq_cons_iff.mp hadded.symm
        rw [readDigits?_eq_some_iff.mpr hi.symm] at hread
        exact absurd hread (by simp)
      | some i =>
        rw [readDigits?_eq_some_iff.mp hread]
        by_cases hfull : done.size = maxInstructions
        · simp only [hfull, if_true]
          refine ⟨fun h => absurd h (by simp), fun ⟨added, hrom, hadded, hsize⟩ => ?_⟩
          have hlength : rom.size = done.size + added.length := by
            rw [← Array.length_toList, hrom, List.length_append, Array.length_toList]
          have hcount := congrArg List.length hadded
          simp only [List.length_cons, List.length_map] at hcount
          omega
        · have hroom : (done.push i).size ≤ maxInstructions := by
            rw [Array.size_push]
            omega
          simp only [hfull, if_false, ih (number + 1) hroom, Array.toList_push, List.append_assoc, List.singleton_append]
          constructor
          · rintro ⟨added, hrom, hadded, hsize⟩
            exact ⟨i :: added, hrom, by simp [hadded], hsize⟩
          · rintro ⟨added, hrom, hadded, hsize⟩
            obtain ⟨j, tail, rfl, hj, htail⟩ := List.map_eq_cons_iff.mp hadded.symm
            obtain rfl := digits_injective hj
            exact ⟨tail, hrom, htail.symm, hsize⟩

theorem decode_eq_ok_iff {text : Bytes} (h : ∀ line ∈ text.splitOn 10, line.length ≤ Source.lineLimit)
    (rom : Array Instruction) :
    decode (Source.ofBytes text) = .ok rom ↔
      visible (text.splitOn 10) = rom.toList.map digits ∧ rom.size ≤ maxInstructions := by
  have hlines : decodeLines 1 #[] (Source.ofBytes text).lines = .ok rom ↔ _ :=
    decodeLines_eq_ok_iff 1 (Nat.zero_le _) (Source.ofBytes text).lines
  have hvisible : visible (Source.ofBytes text).lines = visible (text.splitOn 10) :=
    Bytes.filter_map_lines Bytes.trim_append_return rfl text h
  simp only [List.nil_append, exists_eq_left', hvisible] at hlines
  rw [← hlines, decode]
  cases decodeLines 1 #[] (Source.ofBytes text).lines <;> simp [(Bytes.fault_ofBytes_eq_none_iff text).mpr h]

/-! ## Writing -/

theorem flatten_lines (rom : Array Instruction) : (lines rom).flatten = (rom.toList.map digits).flatMap (· ++ [10]) := by
  rw [List.flatMap_map]
  rfl

theorem encode_of_room {sink : Stream.Sink} {rom : Array Instruction} (h : sink.HasRoom (17 * rom.size)) :
    (encode sink rom).1.contents = sink.contents ++ (rom.toList.map digits).flatMap (· ++ [10]) ∧
      (encode sink rom).2 = none := by
  have hlength : (lines rom).flatten.length = 17 * rom.size := by
    simp [lines, List.length_flatten, Function.comp_def, (isWord_digits _).1, List.map_const', Nat.mul_comm]
  rw [encode, Stream.emit_of_room (hlength ▸ h), flatten_lines]
  simp [Stream.Sink.contents]

theorem decode_written (rom rom' : Array Instruction) :
    decode (Source.ofBytes ((rom.toList.map digits).flatMap (· ++ [10]))) = .ok rom' ↔
      rom' = rom ∧ rom.size ≤ maxInstructions := by
  have hplain : ∀ line ∈ rom.toList.map digits, line.all Bytes.isPlain = true := by
    intro line hline
    obtain ⟨i, -, rfl⟩ := List.mem_map.mp hline
    exact Bytes.all_isPlain_binary 16 i.toNat
  have hsplit := Bytes.splitOn_flatMap_lines fun line hline => Bytes.not_mem_of_plain (hplain line hline)
  have hlimit : ∀ line ∈ ((rom.toList.map digits).flatMap (· ++ [10])).splitOn 10, line.length ≤ Source.lineLimit := by
    rw [hsplit]
    intro line hline
    rcases List.mem_append.mp hline with hline | hline
    · obtain ⟨i, -, rfl⟩ := List.mem_map.mp hline
      rw [(isWord_digits i).1]
      decide
    · rw [List.mem_singleton.mp hline]
      exact Nat.zero_le _
  have hvisible : visible (rom.toList.map digits ++ [[]]) = rom.toList.map digits := by
    have htrim : ((rom.toList.map digits).map Bytes.trim) = rom.toList.map digits := by
      rw [List.map_congr_left fun line hline => Bytes.trim_of_plain (hplain line hline), List.map_id']
    have hkept : (rom.toList.map digits).filter (!·.isEmpty) = rom.toList.map digits := by
      refine List.filter_eq_self.mpr fun line hline => ?_
      obtain ⟨i, -, rfl⟩ := List.mem_map.mp hline
      rw [Bool.not_eq_true', List.isEmpty_eq_false_iff, ← List.length_pos_iff, (isWord_digits i).1]
      decide
    rw [visible, List.map_append, htrim, List.filter_append, hkept]
    exact List.append_nil _
  rw [decode_eq_ok_iff hlimit, hsplit, hvisible]
  constructor
  · rintro ⟨hdigits, hsize⟩
    have hsame : rom' = rom := by
      rw [← Array.toList_inj]
      exact ((List.map_inj_right fun _ _ => digits_injective).mp hdigits).symm
    exact ⟨hsame, hsame ▸ hsize⟩
  · rintro ⟨rfl, hsize⟩
    exact ⟨rfl, hsize⟩

/-! ## The codec -/

theorem forall_isWord_iff (lines : List Bytes) :
    (∀ line ∈ lines, Bytes.trim line = [] ∨ IsWord (Bytes.trim line)) ↔
      ∃ said : List Instruction, visible lines = said.map digits := by
  have hwords : (∀ line ∈ lines, Bytes.trim line = [] ∨ IsWord (Bytes.trim line)) ↔
      ∀ word ∈ visible lines, word ∈ Set.range digits := by
    simp only [visible, List.mem_filter, List.mem_map, Bool.not_eq_true', List.isEmpty_eq_false_iff, isWord_iff,
      Set.mem_range]
    constructor
    · rintro hlines word ⟨⟨line, hline, rfl⟩, hword⟩
      exact ((hlines line hline).resolve_left hword).imp fun _ => Eq.symm
    · intro hlines line hline
      exact or_iff_not_imp_left.mpr fun hword => (hlines _ ⟨⟨line, hline, rfl⟩, hword⟩).imp fun _ => Eq.symm
  have hrange : (∀ word ∈ visible lines, word ∈ Set.range digits) ↔ visible lines ∈ Set.range (List.map digits) := by
    rw [Set.range_list_map]
    rfl
  rw [hwords, hrange, Set.mem_range]
  exact exists_congr fun _ => eq_comm

theorem exists_decode_iff {text : Bytes} (h : ∀ line ∈ text.splitOn 10, line.length ≤ Source.lineLimit) :
    (∃ rom, decode (Source.ofBytes text) = .ok rom) ↔
      (∀ line ∈ text.splitOn 10, Bytes.trim line = [] ∨ IsWord (Bytes.trim line)) ∧
        (visible (text.splitOn 10)).length ≤ maxInstructions := by
  simp only [decode_eq_ok_iff h, forall_isWord_iff]
  constructor
  · rintro ⟨rom, hvisible, hsize⟩
    refine ⟨⟨rom.toList, hvisible⟩, ?_⟩
    rw [hvisible, List.length_map, Array.length_toList]
    exact hsize
  · rintro ⟨⟨said, hvisible⟩, hsize⟩
    rw [hvisible, List.length_map] at hsize
    exact ⟨said.toArray, hvisible, hsize⟩

/-- Writing and reading programs undo each other. What a sink with room gets for a program is read back, unless the
program is larger than an image may be. A text is read exactly if each of its lines is empty or a word when the white
space at its ends is cut off, and not too many are words; what is written for the program read is these words, one a
line. -/
theorem codec_exact :
    (∀ (sink : Stream.Sink) (rom : Array Instruction), sink.HasRoom (17 * rom.size) →
      ∃ written, (encode sink rom).1.contents = sink.contents ++ written ∧ (encode sink rom).2 = none ∧
        (rom.size ≤ maxInstructions → decode (Source.ofBytes written) = .ok rom) ∧
        (maxInstructions < rom.size → ∃ e, decode (Source.ofBytes written) = .error e)) ∧
    ∀ text : Bytes, (∀ line ∈ text.splitOn 10, line.length ≤ Source.lineLimit) →
      ((∃ rom, decode (Source.ofBytes text) = .ok rom) ↔
        (∀ line ∈ text.splitOn 10, Bytes.trim line = [] ∨ IsWord (Bytes.trim line)) ∧
          (visible (text.splitOn 10)).length ≤ maxInstructions) ∧
      ∀ rom, decode (Source.ofBytes text) = .ok rom → ∀ sink : Stream.Sink, sink.HasRoom (17 * rom.size) →
        (encode sink rom).2 = none ∧
          (encode sink rom).1.contents = sink.contents ++ (visible (text.splitOn 10)).flatMap (· ++ [10]) := by
  constructor
  · intro sink rom hroom
    obtain ⟨hcontents, hnone⟩ := encode_of_room hroom
    refine ⟨_, hcontents, hnone, fun hsize => (decode_written rom rom).mpr ⟨rfl, hsize⟩, fun hsize => ?_⟩
    cases hread : decode (Source.ofBytes ((rom.toList.map digits).flatMap (· ++ [10]))) with
    | error e => exact ⟨e, rfl⟩
    | ok rom' => exact absurd ((decode_written rom rom').mp hread).2 (Nat.not_le.mpr hsize)
  · intro text hlimit
    refine ⟨exists_decode_iff hlimit, fun rom hread sink hroom => ?_⟩
    obtain ⟨hcontents, hnone⟩ := encode_of_room hroom
    rw [((decode_eq_ok_iff hlimit rom).mp hread).1]
    exact ⟨hnone, hcontents⟩

/-- An image with a no-break space, a carriage return, a blank line and no end of its last line. -/
theorem codec_exact_blanks :
    let text := [0xC2, 0xA0] ++ ascii "0000000000000101\r\n \t\n1111110000010000"
    let sink : Stream.Sink := { limit := some 34 }
    (∀ line ∈ text.splitOn 10, line.length ≤ Source.lineLimit) ∧ sink.HasRoom (17 * #[5, 0xFC10].size) ∧
      decode (Source.ofBytes text) = .ok #[5, 0xFC10] ∧
      (encode sink #[5, 0xFC10]).1.contents = ascii "0000000000000101\n1111110000010000\n" ∧
      decode (Source.ofBytes (ascii "0000000000000101\n1111110000010000\n")) = .ok #[5, 0xFC10] := by
  intro text sink
  have hlimit : ∀ line ∈ text.splitOn 10, line.length ≤ Source.lineLimit := by decide +kernel
  have hroom : sink.HasRoom (17 * 2) := fun limit hlimit => by
    obtain rfl := Option.some.inj hlimit
    decide
  have hread : decode (Source.ofBytes text) = .ok #[5, 0xFC10] := by decide +kernel
  have hcontents := ((codec_exact.2 text hlimit).2 _ hread sink hroom).2
  obtain ⟨written, hwritten, -, hback, -⟩ := codec_exact.1 sink #[5, 0xFC10] hroom
  have hvisible : (visible (text.splitOn 10)).flatMap (· ++ [10]) = ascii "0000000000000101\n1111110000010000\n" := by
    decide +kernel
  rw [hvisible] at hcontents
  obtain rfl : written = ascii "0000000000000101\n1111110000010000\n" :=
    List.append_cancel_left (hwritten.symm.trans hcontents)
  exact ⟨hlimit, hroom, hread, hcontents, hback (by decide)⟩

end HackPlatform.Image
