import Mathlib.Algebra.GroupWithZero.Nat
import HackPlatform.Proofs.Text.Fields
import HackPlatform.Text.Position

/-!
# Columns and places

The runes of a line make up the line (`Rune.flatMap_decode`). They fall into white space and fields, and `Bytes.Lays` says how: a
field is a run of visible runes as long as possible, and its column is where its first byte stands. So the bytes of a line at the
column of a field start with the field (`isPrefix_drop_of_mem`).

A place in a text is given by what stands before it, and this tells the column (`Bytes.columnAfter`) and how many lines end with a
carriage return (`Bytes.returns`).
-/

namespace HackPlatform

namespace Rune

theorem decodeHead_isPrefix (b : UInt8) (rest : Bytes) : (decodeHead b rest).bytes <+: b :: rest := by
  unfold decodeHead undecodable
  split <;> split <;> simp only [List.cons_prefix_cons, List.nil_prefix, and_self]

theorem flatMap_decodeFrom (skip : Nat) (text : Bytes) : (decodeFrom skip [] text).flatMap Rune.bytes = text.drop skip := by
  induction text generalizing skip with
  | nil => simp [decodeFrom]
  | cons b rest ih =>
    cases skip with
    | zero =>
      obtain ⟨tail, htail⟩ := decodeHead_isPrefix b rest
      have hlength : 0 < (decodeHead b rest).bytes.length := List.length_pos_iff.mpr (decodeHead_bytes_ne_nil b rest)
      have hdrop : (b :: rest).drop (decodeHead b rest).bytes.length = rest.drop ((decodeHead b rest).bytes.length - 1) := by
        conv_lhs => rw [← Nat.sub_add_cancel hlength]
        rfl
      rw [decodeFrom_zero_cons, List.flatMap_cons, ih, ← hdrop, List.drop_zero]
      conv_lhs => rw [← htail, List.drop_left]
      exact htail
    | succ skip => exact ih skip

/-- Nothing of a text is lost when it is decoded. -/
theorem flatMap_decode (text : Bytes) : (decode text).flatMap Rune.bytes = text := flatMap_decodeFrom 0 text

end Rune

namespace Bytes

/-! ## Fields and white space -/

/-- Runes from a column on, and the fields that they show. -/
inductive Lays : Nat → List Rune → List Field → Prop
  | nil (column : Nat) : Lays column [] []
  | blank {column : Nat} {r : Rune} {runes : List Rune} {fields : List Field} (hblank : r.isBlank = true)
      (hrest : Lays (column + r.bytes.length) runes fields) : Lays column (r :: runes) fields
  | field {column : Nat} {word runes : List Rune} {fields : List Field} (hne : word ≠ [])
      (hword : ∀ r ∈ word, r.isBlank = false) (hend : ∀ r ∈ runes.head?, r.isBlank = true)
      (hrest : Lays (column + (word.flatMap Rune.bytes).length) runes fields) :
      Lays column (word ++ runes) (⟨word.flatMap Rune.bytes, column⟩ :: fields)

theorem fieldsFrom_skip {r : Rune} (h : r.isBlank = true) (column : Nat) (done : List Field) (runes : List Rune) :
    fieldsFrom column none done (r :: runes) = fieldsFrom (column + r.bytes.length) none done runes := by
  rw [fieldsFrom.eq_def]
  simp only [h]

-- The induction is on the runes. Between fields the claim is that the rest is laid out; inside of a field it is that the
-- field goes on with the visible runes that come next.
theorem fieldsFrom_lays (runes : List Rune) :
    (∀ column done, ∃ fields, fieldsFrom column none done runes = done.reverse ++ fields ∧ Lays column runes fields) ∧
      ∀ column text start done, ∃ word rest fields, runes = word ++ rest ∧ (∀ r ∈ word, r.isBlank = false) ∧
        (∀ r ∈ rest.head?, r.isBlank = true) ∧ Lays (column + (word.flatMap Rune.bytes).length) rest fields ∧
        fieldsFrom column (some (text, start)) done runes =
          done.reverse ++ ⟨text.reverse ++ word.flatMap Rune.bytes, start⟩ :: fields := by
  induction runes with
  | nil =>
    refine ⟨fun column done => ⟨[], (List.append_nil _).symm, .nil column⟩, fun column text start done => ?_⟩
    refine ⟨[], [], [], rfl, by simp, by simp, .nil _, ?_⟩
    show (⟨text.reverse, start⟩ :: done).reverse = _
    simp
  | cons r runes ih =>
    obtain ⟨ihBetween, ihInside⟩ := ih
    refine ⟨fun column done => ?_, fun column text start done => ?_⟩
    · cases hblank : r.isBlank with
      | true =>
        obtain ⟨fields, heq, hlays⟩ := ihBetween (column + r.bytes.length) done
        exact ⟨fields, by rw [fieldsFrom_skip hblank, heq], .blank hblank hlays⟩
      | false =>
        obtain ⟨word, rest, fields, rfl, hword, hend, hlays, heq⟩ :=
          ihInside (column + r.bytes.length) r.bytes.reverse column done
        refine ⟨⟨r.bytes ++ word.flatMap Rune.bytes, column⟩ :: fields, ?_, ?_⟩
        · rw [fieldsFrom_visible hblank, heq, List.reverse_reverse]
        · rw [Nat.add_assoc, ← List.length_append] at hlays
          have hwhole : ∀ other ∈ r :: word, other.isBlank = false := by simpa [hblank] using hword
          exact .field (List.cons_ne_nil r word) hwhole hend hlays
    · cases hblank : r.isBlank with
      | true =>
        obtain ⟨fields, heq, hlays⟩ := ihBetween (column + r.bytes.length) (⟨text.reverse, start⟩ :: done)
        refine ⟨[], r :: runes, fields, rfl, by simp, by simp [hblank], .blank hblank hlays, ?_⟩
        rw [fieldsFrom_blank hblank, heq]
        simp
      | false =>
        obtain ⟨word, rest, fields, rfl, hword, hend, hlays, heq⟩ :=
          ihInside (column + r.bytes.length) (r.bytes.reverse ++ text) start done
        rw [Nat.add_assoc, ← List.length_append] at hlays
        refine ⟨r :: word, rest, fields, rfl, by simpa [hblank] using hword, hend, hlays, ?_⟩
        rw [fieldsFrom_visible hblank, heq]
        simp

/-- The fields of a line are its runs of visible runes. -/
theorem fields_lays (line : Bytes) : Lays 1 (Rune.decode line) (fields line) := by
  obtain ⟨found, heq, hlays⟩ := (fieldsFrom_lays (Rune.decode line)).1 1 []
  rw [fields, heq]
  exact hlays

theorem Lays.isPrefix_drop {column : Nat} {runes : List Rune} {fields : List Field} (h : Lays column runes fields) :
    ∀ f ∈ fields, column ≤ f.column ∧ f.column - column ≤ (runes.flatMap Rune.bytes).length ∧
      f.text <+: (runes.flatMap Rune.bytes).drop (f.column - column) := by
  induction h with
  | nil column => simp
  | @blank column r runes fields hblank hrest ih =>
    intro f hf
    obtain ⟨hle, hinside, hprefix⟩ := ih f hf
    have hsplit : f.column - column = r.bytes.length + (f.column - (column + r.bytes.length)) := by omega
    rw [List.flatMap_cons, hsplit, List.drop_length_add_append, List.length_append]
    exact ⟨by omega, by omega, hprefix⟩
  | @field column word runes fields hne hword hend hrest ih =>
    intro f hf
    rcases List.mem_cons.mp hf with rfl | hf
    · simp [List.flatMap_append]
    · obtain ⟨hle, hinside, hprefix⟩ := ih f hf
      have hsplit : f.column - column =
          (word.flatMap Rune.bytes).length + (f.column - (column + (word.flatMap Rune.bytes).length)) := by omega
      rw [List.flatMap_append, hsplit, List.drop_length_add_append, List.length_append]
      exact ⟨by omega, by omega, hprefix⟩

/-- Fields have room for a byte between neighbours. If white space comes first there is room for one more. -/
theorem Lays.sum_length_le {column : Nat} {runes : List Rune} {fields : List Field} (h : Lays column runes fields)
    (hbytes : ∀ r ∈ runes, r.bytes ≠ []) :
    (fields.map (·.text.length + 1)).sum ≤ (runes.flatMap Rune.bytes).length + 1 ∧
      ((∀ r ∈ runes.head?, r.isBlank = true) → (fields.map (·.text.length + 1)).sum ≤ (runes.flatMap Rune.bytes).length) := by
  induction h with
  | nil column => simp
  | @blank column r runes fields hblank hrest ih =>
    rw [List.forall_mem_cons] at hbytes
    obtain ⟨hle, -⟩ := ih hbytes.2
    have hpos := List.length_pos_iff.mpr hbytes.1
    rw [List.flatMap_cons, List.length_append]
    exact ⟨by omega, fun _ => by omega⟩
  | @field column word runes fields hne hword hend hrest ih =>
    rw [List.forall_mem_append] at hbytes
    have hle := (ih hbytes.2).2 hend
    rw [List.flatMap_append, List.length_append, List.map_cons, List.sum_cons]
    refine ⟨by simp only; omega, fun hhead => ?_⟩
    cases word with
    | nil => exact absurd rfl hne
    | cons r word => exact absurd (hhead r rfl) (by simp [hword r])

theorem length_joinWith (sep : Bytes) {words : List Bytes} (h : words ≠ []) :
    (joinWith sep words).length + sep.length = (words.map (·.length + sep.length)).sum := by
  cases words with
  | nil => exact absurd rfl h
  | cons word rest =>
    have hrest : ((rest.map (sep ++ ·)).flatten).length = (rest.map (·.length + sep.length)).sum := by
      rw [List.length_flatten, List.map_map]
      congr 1
      exact List.map_congr_left fun other _ => by simp [Nat.add_comm]
    rw [joinWith, List.length_append, hrest, List.map_cons, List.sum_cons]
    omega

/-! ## The words of a line -/

/-- The words of a line: what white space separates in front of a comment. -/
def lineWords (line : Bytes) : List Bytes :=
  (((Rune.decode (uncommented line)).splitOnP Rune.isBlank).filter (!·.isEmpty)).map (·.flatMap Rune.bytes)

theorem Lays.map_text {column : Nat} {runes : List Rune} {fields : List Field} (h : Lays column runes fields) :
    fields.map Field.text = ((runes.splitOnP Rune.isBlank).filter (!·.isEmpty)).map (·.flatMap Rune.bytes) := by
  induction h with
  | nil column => simp
  | @blank column r runes fields hblank hrest ih =>
    rw [List.splitOnP_cons_eq_if_modifyHead, if_pos hblank, ih]
    simp
  | @field column word runes fields hne hword hend hrest ih =>
    cases runes with
    | nil =>
      rw [List.splitOnP_nil] at ih
      rw [List.append_nil, List.splitOnP_eq_singleton hword, List.map_cons, ih]
      simp [hne]
    | cons r runes =>
      -- the word ends at the white space behind it
      rw [List.splitOnP_cons_eq_if_modifyHead, if_pos (hend r rfl)] at ih
      rw [List.splitOnP_append_cons_of_forall_mem hword r (hend r rfl), List.map_cons, ih]
      simp [hne]

theorem lineWords_eq (line : Bytes) : lineWords line = (fields (beforeComment line)).map Field.text := by
  rw [beforeComment_eq, (fields_lays (uncommented line)).map_text, lineWords]

theorem fieldsFrom_append_blank {r : Rune} (h : r.isBlank = true) (column : Nat) (current : Option (Bytes × Nat))
    (done : List Field) (runes : List Rune) : fieldsFrom column current done (runes ++ [r]) = fieldsFrom column current done runes := by
  induction runes generalizing column current done with
  | nil =>
    rw [List.nil_append]
    cases current with
    | none => rw [fieldsFrom_skip h]; rfl
    | some field => rw [fieldsFrom_blank h]; rfl
  | cons first runes ih =>
    rw [List.cons_append]
    cases hfirst : first.isBlank with
    | true =>
      cases current with
      | none => rw [fieldsFrom_skip hfirst, fieldsFrom_skip hfirst, ih]
      | some field => rw [fieldsFrom_blank hfirst, fieldsFrom_blank hfirst, ih]
    | false => rw [fieldsFrom_visible hfirst, fieldsFrom_visible hfirst, ih]

theorem fields_append_return (line : Bytes) : fields (line ++ [13]) = fields line := by
  unfold fields Rune.decode
  rw [Rune.decodeFrom_append_return 0 line (Nat.zero_le _), fieldsFrom_append_blank (by decide)]

theorem fields_beforeComment_append_return (line : Bytes) :
    fields (beforeComment (line ++ [13])) = fields (beforeComment line) := by
  rw [beforeComment_eq, beforeComment_eq]
  rcases uncommented_append_return line with h | h
  · rw [h]
  · rw [h, fields_append_return]

theorem lineWords_append_return (line : Bytes) : lineWords (line ++ [13]) = lineWords line := by
  rw [lineWords_eq, fields_beforeComment_append_return, lineWords_eq]

theorem uncommented_isPrefix (line : Bytes) : uncommented line <+: line := by
  fun_induction uncommented line with
  | case1 rest => exact List.nil_prefix
  | case2 b rest hne ih => exact List.cons_prefix_cons.mpr ⟨rfl, ih⟩
  | case3 => exact List.prefix_rfl

theorem length_joinWith_lineWords_le (line : Bytes) : (joinWith [32] (lineWords line)).length ≤ line.length := by
  have hlays := (fields_lays (beforeComment line)).sum_length_le fun r hr => Rune.bytes_ne_nil_of_mem_decode hr
  have hprefix : (beforeComment line).length ≤ line.length := by
    rw [beforeComment_eq]
    exact (uncommented_isPrefix line).length_le
  rw [Rune.flatMap_decode] at hlays
  by_cases hwords : lineWords line = []
  · simp [hwords, joinWith]
  · have hlength := length_joinWith [32] hwords
    rw [lineWords_eq, List.map_map] at hlength
    simp only [Function.comp_def, List.length_singleton] at hlength
    rw [lineWords_eq]
    omega

theorem isPrefix_drop_of_mem {line : Bytes} {f : Field} (h : f ∈ fields (beforeComment line)) :
    1 ≤ f.column ∧ f.column - 1 ≤ line.length ∧ f.text <+: line.drop (f.column - 1) := by
  obtain ⟨hpos, hinside, hprefix⟩ := (fields_lays (beforeComment line)).isPrefix_drop f h
  rw [Rune.flatMap_decode, beforeComment_eq] at hinside hprefix
  obtain ⟨comment, hline⟩ := uncommented_isPrefix line
  rw [← hline, List.drop_append_of_le_length hinside, List.length_append]
  exact ⟨hpos, by omega, hprefix.trans (List.prefix_append _ _)⟩

/-! ## Places in a text -/

/-- The column of what comes behind a text, counted in bytes from one. -/
def columnAfter (before : Bytes) : Nat := (before.reverse.takeWhile (· != 10)).length + 1

/-- The number of line feeds with a carriage return in front of them. -/
def returns : Bytes → Nat
  | 13 :: 10 :: rest => returns rest + 1
  | _ :: rest => returns rest
  | [] => 0

theorem columnAfter_append {front : Bytes} (hfront : front = [] ∨ front.getLast? = some 10) {part : Bytes} (hpart : 10 ∉ part) :
    columnAfter (front ++ part) = part.length + 1 := by
  have hstop : front.reverse.takeWhile (· != 10) = [] := by
    rcases hfront with rfl | hlast
    · rfl
    · obtain ⟨front, rfl⟩ := List.getLast?_eq_some_iff.mp hlast
      simp
  have hall : ∀ b ∈ part.reverse, (b != 10) = true := by
    intro b hb
    simpa using fun heq : b = 10 => hpart (heq ▸ List.mem_reverse.mp hb)
  rw [columnAfter, List.reverse_append, List.takeWhile_append_of_pos hall, hstop, List.append_nil, List.length_reverse]

theorem returns_cons_of_ne {b : UInt8} {rest : Bytes} (h : ∀ tail, b = 13 → rest = 10 :: tail → False) :
    returns (b :: rest) = returns rest := by
  rw [returns]
  exact h

/-- A line feed counts if the line that it ends has a carriage return at its end. -/
theorem returns_line {line : Bytes} (h : 10 ∉ line) (rest : Bytes) :
    returns (line ++ 10 :: rest) = (if line.getLast? = some 13 then 1 else 0) + returns rest := by
  induction line with
  | nil => simp [returns_cons_of_ne]
  | cons b line ih =>
    rw [List.mem_cons, not_or] at h
    cases line with
    | nil =>
      by_cases hb : b = 13
      · simp [hb, returns, Nat.add_comm]
      · simp [hb, returns_cons_of_ne]
    | cons c line =>
      rw [List.cons_append, returns_cons_of_ne, ih h.2, List.getLast?_cons_cons]
      rintro tail - htail
      exact h.2 (by simp [(List.cons.inj htail).1])

theorem returns_of_not_mem {part : Bytes} (h : 10 ∉ part) : returns part = 0 := by
  induction part with
  | nil => rfl
  | cons b part ih =>
    rw [List.mem_cons, not_or] at h
    rw [returns_cons_of_ne, ih h.2]
    rintro tail - rfl
    exact h.2 (by simp)

theorem returns_eq_zero_iff (text : Bytes) : returns text = 0 ↔ ¬[13, 10] <:+: text := by
  fun_induction returns text with
  | case1 rest ih => simpa using List.prefix_append [13, 10] rest |>.isInfix
  | case2 b rest hne ih =>
    rw [ih, List.infix_cons_iff, not_or]
    refine ⟨fun h => ⟨?_, h⟩, And.right⟩
    rintro ⟨tail, htail⟩
    obtain ⟨hb, htail⟩ := List.cons.inj htail
    exact hne tail hb.symm htail.symm
  | case3 => simp

theorem isPrefix_intercalate (front : List Bytes) (line : Bytes) (back : List Bytes) :
    front.flatMap (· ++ [10]) ++ line <+: [10].intercalate (front ++ line :: back) := by
  induction front with
  | nil =>
    cases back with
    | nil => simp
    | cons next back => simp [List.intercalate_cons_cons]
  | cons first front ih =>
    obtain ⟨next, others, hrest⟩ : ∃ next others, front ++ line :: back = next :: others :=
      List.exists_cons_of_ne_nil (by simp)
    rw [hrest] at ih
    rw [List.cons_append, hrest, List.intercalate_cons_cons, List.flatMap_cons, List.append_assoc, List.append_assoc,
      List.append_assoc]
    simpa using ih

section Lines

variable {front : List Bytes} (hfront : ∀ line ∈ front, 10 ∉ line) {part : Bytes} (hpart : 10 ∉ part)
include hfront hpart

theorem count_lines_append : (front.flatMap (· ++ [10]) ++ part).count 10 = front.length := by
  rw [List.count_append, List.count_eq_zero.mpr hpart, List.count_flatMap, Nat.add_zero]
  have hone : ∀ line ∈ front, (List.count 10 ∘ fun line : Bytes => line ++ [10]) line = 1 := by
    intro line hline
    simp [List.count_eq_zero.mpr (hfront line hline)]
  rw [List.map_congr_left hone, List.map_const', List.sum_replicate_nat, Nat.mul_one]

omit hfront in
theorem columnAfter_lines_append : columnAfter (front.flatMap (· ++ [10]) ++ part) = part.length + 1 := by
  refine columnAfter_append ?_ hpart
  cases front using List.reverseRecOn with
  | nil => exact .inl rfl
  | append_singleton front line => exact .inr (by simp [List.flatMap_append])

theorem returns_lines_append :
    returns (front.flatMap (· ++ [10]) ++ part) = front.countP (·.getLast? == some 13) := by
  induction front with
  | nil => exact returns_of_not_mem hpart
  | cons line front ih =>
    rw [List.forall_mem_cons] at hfront
    rw [List.flatMap_cons, List.append_assoc, List.append_assoc, List.singleton_append, returns_line hfront.1, ih hfront.2,
      List.countP_cons, Nat.add_comm]
    simp

end Lines

end Bytes

end HackPlatform
