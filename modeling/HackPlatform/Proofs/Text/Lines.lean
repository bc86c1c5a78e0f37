import HackPlatform.Proofs.Text.Numeral
import HackPlatform.Text.Blank
import HackPlatform.Text.Line

/-!
# The code of a source

What a line of assembly says is left when its comment is cut off and its white space is deleted (`Bytes.code`). The code of
a source is that of its lines, those without code left out (`Bytes.codes`).

* A line and the line with a carriage return behind it have the same code (`code_append_return`), so the code of a
  text is that of the pieces between its line feeds (`codes_lines`). The same is true of whatever else a carriage return does
  not change (`filter_map_lines`), such as a line without the white space at its ends (`trim_append_return`).
* A line of visible ASCII characters without a slash is its own code (`code_of_plain`), so a text of such lines can be
  read back line by line (`codes_of_plain`).
-/

namespace HackPlatform

namespace Rune

/-! ## Decoding -/

theorem decodeFrom_done (skip : Nat) (done : List Rune) (text : Bytes) :
    decodeFrom skip done text = done.reverse ++ decodeFrom skip [] text := by
  induction text generalizing skip done with
  | nil => simp [decodeFrom]
  | cons b rest ih =>
    cases skip with
    | zero =>
      simp only [decodeFrom]
      rw [ih _ (decodeHead b rest :: done), ih _ [decodeHead b rest]]
      simp
    | succ skip =>
      simp only [decodeFrom]
      exact ih skip done

theorem decodeFrom_zero_cons (b : UInt8) (rest : Bytes) :
    decodeFrom 0 [] (b :: rest) = decodeHead b rest :: decodeFrom ((decodeHead b rest).bytes.length - 1) [] rest := by
  rw [decodeFrom, decodeFrom_done]
  rfl

theorem decodeHead_of_lt {b : UInt8} (h : b < 0x80) (rest : Bytes) : decodeHead b rest = ⟨b.toNat, [b]⟩ := by
  have hann : announced b = 1 := by
    have : b < 0xC2 := UInt8.lt_of_lt_of_le h (by decide)
    simp [announced, this]
  unfold decodeHead
  rw [hann]
  simp [h]

theorem decodeHead_bytes_ne_nil (b : UInt8) (rest : Bytes) : (decodeHead b rest).bytes ≠ [] := by
  unfold decodeHead undecodable
  split <;> split <;> simp

theorem bytes_ne_nil_of_mem_decode {text : Bytes} {r : Rune} (h : r ∈ decode text) : r.bytes ≠ [] := by
  unfold decode at h
  generalize 0 = skip at h
  induction text generalizing skip with
  | nil => simp [decodeFrom] at h
  | cons b rest ih =>
    cases skip with
    | zero =>
      rw [decodeFrom_zero_cons, List.mem_cons] at h
      rcases h with rfl | h
      · exact decodeHead_bytes_ne_nil b rest
      · exact ih _ h
    | succ skip => exact ih _ h

theorem decode_of_ascii {text : Bytes} (h : ∀ b ∈ text, b < 0x80) :
    decode text = text.map fun b => ⟨b.toNat, [b]⟩ := by
  unfold decode
  induction text with
  | nil => rfl
  | cons b rest ih =>
    rw [decodeFrom_zero_cons, decodeHead_of_lt (h b (by simp))]
    simp only [List.length_singleton, Nat.sub_self, List.map_cons]
    rw [ih fun c hc => h c (by simp [hc])]

/-- A carriage return belongs to no longer sequence: the rune in front of it does not depend on it. -/
theorem decodeHead_append_return (b : UInt8) (rest : Bytes) : decodeHead b (rest ++ [13]) = decodeHead b rest := by
  have hfollow : mayFollow b 13 = false := by
    unfold mayFollow
    rw [Bool.and_eq_false_iff]
    left
    split
    · decide
    · split <;> decide
  have hcont : isContinuation 13 = false := by decide
  -- at most three bytes behind the first one are looked at
  match rest with
  | [] => unfold decodeHead announced; split <;> grind
  | [c] => unfold decodeHead announced; split <;> grind
  | [c, d] => unfold decodeHead announced; split <;> grind
  | c :: d :: e :: rest => unfold decodeHead announced; split <;> grind

theorem length_decodeHead_le (b : UInt8) (rest : Bytes) :
    (decodeHead b rest).bytes.length ≤ rest.length + 1 := by
  unfold decodeHead undecodable
  split <;> split <;> simp

theorem decodeFrom_append_return (skip : Nat) (text : Bytes) (h : skip ≤ text.length) :
    decodeFrom skip [] (text ++ [13]) = decodeFrom skip [] text ++ [⟨13, [13]⟩] := by
  induction text generalizing skip with
  | nil =>
    obtain rfl : skip = 0 := by simpa using h
    decide
  | cons b rest ih =>
    cases skip with
    | zero =>
      -- the bytes to be skipped next are all in front of the carriage return
      have hlen := length_decodeHead_le b rest
      rw [List.cons_append, decodeFrom_zero_cons, decodeFrom_zero_cons, decodeHead_append_return, ih _ (by omega)]
      rfl
    | succ skip => exact ih skip (by simpa using h)

end Rune

namespace Bytes

/-! ## White space -/

theorem squeeze_append_return (line : Bytes) : squeeze (line ++ [13]) = squeeze line := by
  unfold squeeze Rune.decode
  rw [Rune.decodeFrom_append_return 0 line (Nat.zero_le _)]
  simp [Rune.isBlank, HackPlatform.isBlank]

theorem trim_append_return (line : Bytes) : trim (line ++ [13]) = trim line := by
  have hblank : Rune.isBlank ⟨13, [13]⟩ = true := by decide
  unfold trim Rune.decode
  rw [Rune.decodeFrom_append_return 0 line (Nat.zero_le _), List.dropWhile_append]
  by_cases hall : ((Rune.decodeFrom 0 [] line).dropWhile Rune.isBlank).isEmpty = true
  · rw [if_pos hall, List.isEmpty_iff.mp hall]
    simp [hblank]
  · rw [if_neg hall]
    simp only [List.reverse_append, List.reverse_singleton, List.singleton_append, List.dropWhile_cons_of_pos hblank]

theorem firstVisible?_eq_none_iff (line : Bytes) : firstVisible? line = none ↔ squeeze line = [] := by
  unfold firstVisible? squeeze
  constructor
  · intro h
    by_cases hall : (Rune.decode line).all Rune.isBlank = true
    · rw [List.all_eq_true] at hall
      rw [List.filter_eq_nil_iff.mpr (by simpa using hall)]
      rfl
    · simp [hall] at h
  · intro h
    rw [List.flatMap_eq_nil_iff] at h
    rw [if_pos]
    rw [List.all_eq_true]
    intro r hr
    cases hblank : r.isBlank with
    | true => rfl
    | false =>
      have hmem : r ∈ (Rune.decode line).filter (!·.isBlank) := by simp [List.mem_filter, hr, hblank]
      exact absurd (h r hmem) (Rune.bytes_ne_nil_of_mem_decode hr)

/-! ## Comments -/

/-- The part of a line before its first `//`. -/
def uncommented : Bytes → Bytes
  | 47 :: 47 :: _ => []
  | b :: rest => b :: uncommented rest
  | [] => []

theorem uncommented_spec (n : Nat) (line : Bytes) :
    (∀ m, commentAt n line = some m → n ≤ m ∧ uncommented line = line.take (m - n)) ∧
      (commentAt n line = none → uncommented line = line) := by
  fun_induction commentAt n line with
  | case1 n rest => simp [uncommented]
  | case2 n b rest hne ih =>
    have hstep : uncommented (b :: rest) = b :: uncommented rest := by
      rw [uncommented]
      exact hne
    rw [hstep]
    refine ⟨fun m hm => ?_, fun h => by rw [ih.2 h]⟩
    obtain ⟨hle, htake⟩ := ih.1 m hm
    refine ⟨by omega, ?_⟩
    rw [htake, show m - n = (m - (n + 1)) + 1 by omega, List.take_succ_cons]
  | case3 n => simp [uncommented]

theorem beforeComment_eq (line : Bytes) : beforeComment line = uncommented line := by
  unfold beforeComment
  cases h : commentAt 0 line with
  | some m => exact ((uncommented_spec 0 line).1 m h).2.symm
  | none => exact ((uncommented_spec 0 line).2 h).symm

theorem uncommented_append_return (line : Bytes) :
    uncommented (line ++ [13]) = uncommented line ∨ uncommented (line ++ [13]) = uncommented line ++ [13] := by
  fun_induction uncommented line with
  | case1 rest => left; rfl
  | case2 b rest hne ih =>
    have hstep : uncommented (b :: rest ++ [13]) = b :: uncommented (rest ++ [13]) := by
      rw [List.cons_append, uncommented]
      -- the byte that was added does not start a comment
      intro rest' hb heq
      cases rest with
      | nil => simp at heq
      | cons c rest =>
        obtain ⟨rfl, _⟩ := List.cons.inj heq
        exact hne rest hb rfl
    rw [hstep]
    rcases ih with ih | ih
    · left; rw [ih]
    · right; rw [ih]; rfl
  | case3 => right; rfl

/-! ## The code of lines -/

/-- What a line says: the part before its comment, without white space. -/
def code (line : Bytes) : Bytes := squeeze (uncommented line)

/-- What lines say, those that say nothing left out. -/
def codes (lines : List Bytes) : List Bytes := (lines.map code).filter (!·.isEmpty)

theorem code_append_return (line : Bytes) : code (line ++ [13]) = code line := by
  unfold code
  rcases uncommented_append_return line with h | h
  · rw [h]
  · rw [h, squeeze_append_return]

@[simp] theorem codes_nil : codes [] = [] := rfl

theorem codes_cons (line : Bytes) (lines : List Bytes) :
    codes (line :: lines) = if code line = [] then codes lines else code line :: codes lines := by
  unfold codes
  rw [List.map_cons, List.filter_cons]
  by_cases h : code line = [] <;> simp [h]

theorem codes_append (xs ys : List Bytes) : codes (xs ++ ys) = codes xs ++ codes ys := by
  simp [codes]

/-! ## The lines of a text -/

theorem piecesFrom_eq (sep : UInt8) (current : Bytes) (done : List Bytes) (text : Bytes) :
    piecesFrom sep current done text = done.reverse ++ List.splitOnPPrepend (· == sep) text current := by
  induction text generalizing current done with
  | nil => simp [piecesFrom]
  | cons b rest ih =>
    rw [piecesFrom]
    by_cases h : b = sep
    · rw [if_pos h, ih, List.splitOnPPrepend_cons_pos (by simp [h])]
      simp
    · rw [if_neg h, ih, List.splitOnPPrepend_cons_neg (by simp [h])]

theorem pieces_eq_splitOn (sep : UInt8) (text : Bytes) : pieces sep text = text.splitOn sep := by
  rw [pieces, piecesFrom_eq]
  rfl

theorem notMem_of_mem_splitOn {sep : UInt8} {text piece : Bytes} (h : piece ∈ text.splitOn sep) : sep ∉ piece := by
  induction text generalizing piece with
  | nil => simp_all
  | cons b rest ih =>
    rw [List.splitOn_cons_eq_if_modifyHead] at h
    by_cases hb : b = sep
    · rw [if_pos (by simp [hb])] at h
      rcases List.mem_cons.mp h with rfl | h
      · simp
      · exact ih h
    · rw [if_neg (by simp [hb])] at h
      obtain ⟨first, others, hsplit⟩ := List.exists_cons_of_ne_nil (List.splitOn_ne_nil sep rest)
      rw [hsplit, List.modifyHead_cons] at h
      rcases List.mem_cons.mp h with rfl | h
      · simpa [Ne.symm hb] using ih (by rw [hsplit]; exact List.mem_cons_self)
      · exact ih (by rw [hsplit]; exact List.mem_cons_of_mem _ h)

theorem splitOn_eq_rawLines_append (text : Bytes) :
    ∃ last, text.splitOn 10 = Source.rawLines text ++ last ∧ ∀ line ∈ last, line = [] := by
  simp only [Source.rawLines, pieces_eq_splitOn]
  split
  · rename_i h
    obtain ⟨front, hfront⟩ := List.getLast?_eq_some_iff.mp h
    exact ⟨[[]], by rw [hfront, List.dropLast_concat], by simp⟩
  · exact ⟨[], by simp, by simp⟩

theorem fault_ofBytes_eq_none_iff (text : Bytes) :
    (Source.ofBytes text).fault = none ↔ ∀ line ∈ text.splitOn 10, line.length ≤ Source.lineLimit := by
  obtain ⟨last, hsplit, hlast⟩ := splitOn_eq_rawLines_append text
  have hraw : (Source.ofBytes text).fault = none ↔ ∀ line ∈ Source.rawLines text, line.length ≤ Source.lineLimit := by
    simp [Source.ofBytes]
  rw [hraw, hsplit]
  constructor
  · intro h line hmem
    rcases List.mem_append.mp hmem with hmem | hmem
    · exact h line hmem
    · simp [hlast line hmem]
  · intro h line hmem
    exact h line (List.mem_append_left _ hmem)

theorem lines_ofBytes {text : Bytes} (h : ∀ line ∈ Source.rawLines text, line.length ≤ Source.lineLimit) :
    (Source.ofBytes text).lines = (Source.rawLines text).map Source.dropReturn ∧ (Source.ofBytes text).fault = none := by
  have htake : (Source.rawLines text).takeWhile (·.length ≤ Source.lineLimit) = Source.rawLines text := by
    have happend := @List.takeWhile_append_of_pos _ _ _ [] fun line hline => decide_eq_true (h line hline)
    simpa only [List.append_nil, List.takeWhile_nil] using happend
  exact ⟨by simp only [Source.ofBytes, htake], by simpa [Source.ofBytes] using h⟩

theorem length_dropReturn_le (line : Bytes) : (Source.dropReturn line).length ≤ line.length := by
  unfold Source.dropReturn
  split <;> simp

theorem length_le_of_mem_lines {text line : Bytes} (h : line ∈ (Source.ofBytes text).lines) : line.length ≤ Source.lineLimit := by
  obtain ⟨raw, hraw, rfl⟩ := List.mem_map.mp h
  exact Nat.le_trans (length_dropReturn_le raw) (by simpa using List.all_eq_true.mp List.all_takeWhile raw hraw)

theorem apply_dropReturn {α : Type} {f : Bytes → α} (h : ∀ line, f (line ++ [13]) = f line) (line : Bytes) :
    f (Source.dropReturn line) = f line := by
  unfold Source.dropReturn
  split
  · rename_i hend
    obtain ⟨front, rfl⟩ := List.getLast?_eq_some_iff.mp hend
    rw [List.dropLast_concat, h]
  · rfl

/-- What a text says line by line it says between its line feeds, if a carriage return says nothing. -/
theorem filter_map_lines {α : Type} {f : Bytes → List α} (hreturn : ∀ line, f (line ++ [13]) = f line) (hnil : f [] = [])
    (text : Bytes) (h : ∀ line ∈ text.splitOn 10, line.length ≤ Source.lineLimit) :
    ((Source.ofBytes text).lines.map f).filter (!·.isEmpty) = ((text.splitOn 10).map f).filter (!·.isEmpty) := by
  obtain ⟨last, hsplit, hlast⟩ := splitOn_eq_rawLines_append text
  have hlines := lines_ofBytes fun line hline => h line (by rw [hsplit]; exact List.mem_append_left _ hline)
  have hdrop : f ∘ Source.dropReturn = f := funext fun line => apply_dropReturn hreturn line
  -- behind a final line feed there is one more piece, but it is empty
  have hempty : (last.map f).filter (!·.isEmpty) = [] := by
    rw [List.filter_eq_nil_iff]
    intro shown hshown
    obtain ⟨line, hmem, rfl⟩ := List.mem_map.mp hshown
    simp [hlast line hmem, hnil]
  rw [hlines.1, List.map_map, hdrop, hsplit, List.map_append, List.filter_append, hempty, List.append_nil]

theorem codes_lines (text : Bytes) (h : ∀ line ∈ text.splitOn 10, line.length ≤ Source.lineLimit) :
    codes (Source.ofBytes text).lines = codes (text.splitOn 10) :=
  filter_map_lines code_append_return rfl text h

theorem codes_splitOn_append {before : Bytes} (h : before = [] ∨ before.getLast? = some 10) (rest : Bytes) :
    codes ((before ++ rest).splitOn 10) = codes (before.splitOn 10) ++ codes (rest.splitOn 10) := by
  have hempty : codes [[]] = [] := rfl
  rcases h with rfl | hlast
  · rw [List.splitOn_nil, hempty]
    rfl
  · obtain ⟨front, rfl⟩ := List.getLast?_eq_some_iff.mp hlast
    rw [List.append_assoc, List.singleton_append, List.splitOn_append_cons_self, List.splitOn_append_cons_self,
      List.splitOn_nil, codes_append, codes_append, hempty, List.append_nil]

/-! ## Plain text -/

/-- Is the byte a visible ASCII character other than a slash? -/
def isPlain (b : UInt8) : Bool := 32 < b && b < 127 && b != 47

theorem all_isPlain_binary (width n : Nat) : (Numeral.binary width n).all isPlain = true := by
  rw [List.all_eq_true]
  intro b hb
  rcases Numeral.mem_binary hb with rfl | rfl <;> decide

theorem uncommented_of_not_mem {line : Bytes} (h : 47 ∉ line) : uncommented line = line := by
  fun_induction uncommented line with
  | case1 rest => simp at h
  | case2 b rest hne ih => rw [ih fun hmem => h (List.mem_cons_of_mem _ hmem)]
  | case3 => rfl

theorem uncommented_of_plain {line : Bytes} (h : line.all isPlain = true) : uncommented line = line :=
  uncommented_of_not_mem fun hmem => absurd (List.all_eq_true.mp h 47 hmem) (by decide)

theorem isBlank_of_plain {b : UInt8} (h : isPlain b = true) : HackPlatform.isBlank b.toNat = false := by
  simp only [isPlain, Bool.and_eq_true, decide_eq_true_eq, UInt8.lt_iff_toNat_lt] at h
  have h32 : 32 < b.toNat := h.1.1
  have h127 : b.toNat < 127 := h.1.2
  simp only [HackPlatform.isBlank, Bool.or_eq_false_iff, Bool.and_eq_false_iff, decide_eq_false_iff_not, beq_eq_false_iff_ne]
  omega

theorem lt_of_plain {b : UInt8} (h : isPlain b = true) : b < 0x80 := by
  simp only [isPlain, Bool.and_eq_true, decide_eq_true_eq] at h
  exact UInt8.lt_trans h.1.2 (by decide)

theorem decode_of_plain {line : Bytes} (h : line.all isPlain = true) :
    (Rune.decode line).flatMap Rune.bytes = line ∧ ∀ r ∈ Rune.decode line, r.isBlank = false := by
  rw [List.all_eq_true] at h
  rw [Rune.decode_of_ascii fun b hb => lt_of_plain (h b hb)]
  refine ⟨by simp [List.flatMap_map], fun r hr => ?_⟩
  obtain ⟨b, hb, rfl⟩ := List.mem_map.mp hr
  exact isBlank_of_plain (h b hb)

theorem squeeze_of_plain {line : Bytes} (h : line.all isPlain = true) : squeeze line = line := by
  obtain ⟨hbytes, hvisible⟩ := decode_of_plain h
  rw [squeeze, List.filter_eq_self.mpr fun r hr => by rw [hvisible r hr]; rfl, hbytes]

theorem trim_of_plain {line : Bytes} (h : line.all isPlain = true) : trim line = line := by
  obtain ⟨hbytes, hvisible⟩ := decode_of_plain h
  have hkept : ∀ runes : List Rune, (∀ r ∈ runes, r.isBlank = false) → runes.dropWhile Rune.isBlank = runes := by
    intro runes hrunes
    cases runes with
    | nil => rfl
    | cons r rest => rw [List.dropWhile_cons_of_neg (by simp [hrunes r])]
  rw [trim, hkept _ hvisible]
  simp only [hkept _ fun r hr => hvisible r (List.mem_reverse.mp hr), List.reverse_reverse, hbytes]

theorem code_of_plain {line : Bytes} (h : line.all isPlain = true) : code line = line := by
  rw [code, uncommented_of_plain h, squeeze_of_plain h]

theorem splitOn_flatMap_lines {lines : List Bytes} (h : ∀ line ∈ lines, 10 ∉ line) :
    (lines.flatMap (· ++ [10])).splitOn 10 = lines ++ [[]] := by
  induction lines with
  | nil => simp
  | cons line rest ih =>
    rw [List.flatMap_cons, List.append_assoc, List.singleton_append,
      List.splitOn_append_cons_self_of_not_mem (h line (by simp)), ih fun l hl => h l (by simp [hl])]
    rfl

theorem rawLines_flatMap_lines {lines : List Bytes} (h : ∀ line ∈ lines, 10 ∉ line) :
    Source.rawLines (lines.flatMap (· ++ [10])) = lines := by
  rw [Source.rawLines, pieces_eq_splitOn, splitOn_flatMap_lines h]
  simp

theorem not_mem_of_plain {line : Bytes} (h : line.all isPlain = true) : 10 ∉ line := by
  intro hmem
  exact absurd (List.all_eq_true.mp h 10 hmem) (by decide)

theorem codes_of_plain {lines : List Bytes} (hplain : ∀ line ∈ lines, line.all isPlain = true)
    (hne : ∀ line ∈ lines, line ≠ []) : codes ((lines.flatMap (· ++ [10])).splitOn 10) = lines := by
  rw [splitOn_flatMap_lines fun line hmem => not_mem_of_plain (hplain line hmem), codes_append]
  have hlines : codes lines = lines := by
    unfold codes
    rw [List.map_congr_left fun line hmem => code_of_plain (hplain line hmem), List.map_id', List.filter_eq_self]
    intro line hmem
    simpa using hne line hmem
  rw [hlines]
  exact List.append_nil _

end Bytes

end HackPlatform
