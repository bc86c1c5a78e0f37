import HackPlatform.Proofs.Text.Lines

/-!
# The fields of a line

Plain words with a space between neighbours are the fields of the line that they make (`fields_joinWith`). Such a line holds no
comment, and it is read as a source of this one line (`ofBytes_line`).
-/

namespace HackPlatform

theorem Source.ofBytes_line {line : Bytes} (hne : line ≠ []) (hfeed : 10 ∉ line) (hreturn : 13 ∉ line)
    (hlength : line.length ≤ lineLimit) : ofBytes line = { lines := [line], fault := none } := by
  have hraw : rawLines line = [line] := by
    simp [rawLines, Bytes.pieces_eq_splitOn, List.splitOn_eq_singleton hfeed, hne]
  have hkept : dropReturn line = line := if_neg fun hlast => hreturn (List.mem_of_getLast? hlast)
  have hshort : decide (line.length ≤ lineLimit) = true := decide_eq_true hlength
  simp only [ofBytes, hraw, List.takeWhile_cons, List.takeWhile_nil, List.all_cons, List.all_nil, hshort, if_true, Bool.and_true,
    List.map_cons, List.map_nil, hkept]

namespace Bytes

/-! ## Words -/

/-- A word that stands on its own as a field. -/
def IsWord (word : Bytes) : Prop := word ≠ [] ∧ word.all isPlain = true

/-- Words with a space between neighbours, each as a field, from a column on. -/
def spaced : Nat → List Bytes → List Field
  | _, [] => []
  | column, word :: rest => ⟨word, column⟩ :: spaced (column + word.length + 1) rest

theorem map_text_spaced (column : Nat) (words : List Bytes) : (spaced column words).map Field.text = words := by
  induction words generalizing column with
  | nil => rfl
  | cons word rest ih => rw [spaced, List.map_cons, ih]

theorem joinWith_cons_cons (sep word next : Bytes) (rest : List Bytes) :
    joinWith sep (word :: next :: rest) = word ++ sep ++ joinWith sep (next :: rest) := by
  simp [joinWith]

theorem mem_joinWith {sep : Bytes} {words : List Bytes} {b : UInt8} (h : b ∈ joinWith sep words) :
    b ∈ sep ∨ ∃ word ∈ words, b ∈ word := by
  cases words with
  | nil => exact absurd h (by simp [joinWith])
  | cons word rest =>
    rcases List.mem_append.mp h with h | h
    · exact .inr ⟨word, by simp, h⟩
    · obtain ⟨part, hpart, hb⟩ := List.mem_flatten.mp h
      obtain ⟨other, hother, rfl⟩ := List.mem_map.mp hpart
      rcases List.mem_append.mp hb with hb | hb
      · exact .inl hb
      · exact .inr ⟨other, by simp [hother], hb⟩

theorem spaced_byte {words : List Bytes} (hwords : ∀ word ∈ words, word.IsWord) {b : UInt8} (h : b ∈ joinWith [32] words) :
    b = 32 ∨ isPlain b = true := by
  rcases mem_joinWith h with h | ⟨word, hword, hb⟩
  · exact .inl (List.mem_singleton.mp h)
  · exact .inr (List.all_eq_true.mp (hwords word hword).2 b hb)

/-- The rune of an ASCII character. -/
def runeOf (b : UInt8) : Rune := ⟨b.toNat, [b]⟩

theorem isBlank_runeOf {b : UInt8} (h : isPlain b = true) : (runeOf b).isBlank = false := by
  rw [Rune.isBlank]
  exact isBlank_of_plain h

theorem fieldsFrom_visible {r : Rune} (h : r.isBlank = false) (column : Nat) (current : Option (Bytes × Nat))
    (done : List Field) (runes : List Rune) :
    fieldsFrom column current done (r :: runes) = fieldsFrom (column + r.bytes.length)
      (some (match current with
        | none => (r.bytes.reverse, column)
        | some (text, start) => (r.bytes.reverse ++ text, start))) done runes := by
  rw [fieldsFrom.eq_def]
  cases current <;> simp only [h]

theorem fieldsFrom_blank {r : Rune} (h : r.isBlank = true) (column : Nat) (text : Bytes) (start : Nat) (done : List Field)
    (runes : List Rune) : fieldsFrom column (some (text, start)) done (r :: runes) =
      fieldsFrom (column + r.bytes.length) none (⟨text.reverse, start⟩ :: done) runes := by
  rw [fieldsFrom.eq_def]
  simp only [h]

theorem fieldsFrom_word {word : Bytes} (hword : word.all isPlain = true) (column : Nat) (text : Bytes) (start : Nat)
    (done : List Field) (runes : List Rune) :
    fieldsFrom column (some (text, start)) done (word.map runeOf ++ runes) =
      fieldsFrom (column + word.length) (some (word.reverse ++ text, start)) done runes := by
  induction word generalizing column text with
  | nil => rfl
  | cons b rest ih =>
    rw [List.all_cons, Bool.and_eq_true] at hword
    rw [List.map_cons, List.cons_append, fieldsFrom_visible (isBlank_runeOf hword.1), ih hword.2, List.length_cons,
      List.reverse_cons, List.append_assoc, Nat.add_assoc, Nat.add_comm rest.length]
    rfl

theorem fieldsFrom_start {word : Bytes} (hword : word.IsWord) (column : Nat) (done : List Field) (runes : List Rune) :
    fieldsFrom column none done (word.map runeOf ++ runes) =
      fieldsFrom (column + word.length) (some (word.reverse, column)) done runes := by
  obtain ⟨hne, hplain⟩ := hword
  cases word with
  | nil => exact absurd rfl hne
  | cons b rest =>
    rw [List.all_cons, Bool.and_eq_true] at hplain
    rw [List.map_cons, List.cons_append, fieldsFrom_visible (isBlank_runeOf hplain.1), fieldsFrom_word hplain.2,
      List.length_cons, List.reverse_cons, Nat.add_assoc, Nat.add_comm rest.length]
    rfl

theorem fieldsFrom_joinWith {words : List Bytes} (hwords : ∀ word ∈ words, word.IsWord) (column : Nat)
    (done : List Field) :
    fieldsFrom column none done ((joinWith [32] words).map runeOf) = done.reverse ++ spaced column words := by
  induction words generalizing column done with
  | nil => exact (List.append_nil done.reverse).symm
  | cons word rest ih =>
    rw [List.forall_mem_cons] at hwords
    cases rest with
    | nil =>
      have hstart := fieldsFrom_start hwords.1 column done []
      rw [List.append_nil] at hstart
      rw [show joinWith [32] [word] = word from List.append_nil word, hstart]
      show (⟨word.reverse.reverse, column⟩ :: done).reverse = done.reverse ++ [⟨word, column⟩]
      rw [List.reverse_reverse, List.reverse_cons]
    | cons next rest =>
      -- the space behind the word ends its field
      have hspace : (runeOf 32).isBlank = true := by decide
      rw [joinWith_cons_cons, List.append_assoc, List.map_append, fieldsFrom_start hwords.1, List.singleton_append,
        List.map_cons, fieldsFrom_blank hspace, ih hwords.2]
      simp [spaced, runeOf]

/-- The fields of a line of words are the words. -/
theorem fields_joinWith {words : List Bytes} (hwords : ∀ word ∈ words, word.IsWord) :
    fields (beforeComment (joinWith [32] words)) = spaced 1 words := by
  have hslash : 47 ∉ joinWith [32] words := fun h => absurd (spaced_byte hwords h) (by decide)
  have hascii : ∀ b ∈ joinWith [32] words, b < 0x80 := by
    intro b hb
    rcases spaced_byte hwords hb with rfl | hplain
    · decide
    · exact lt_of_plain hplain
  rw [beforeComment_eq, uncommented_of_not_mem hslash, fields, Rune.decode_of_ascii hascii]
  exact fieldsFrom_joinWith hwords 1 []

end Bytes

end HackPlatform
