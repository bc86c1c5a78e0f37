import HackPlatform.Proofs.Stack.Reading

/-!
# Commands and their written forms

A program is accepted exactly if the words of each line that has any spell a command, and its commands are those that they spell
(`exists_parse_iff`). So what is no word, such as comments, blank lines, white space and line ends, means nothing, nor do zeros in front
of an index. Reading gives well-formed commands only (`wellFormed_of_parse`), and it gives back each of them from its written
form (`parse_text`). So a command can be written and read back exactly if it is well-formed (`parse_text_eq_ok_iff`), and a program is
read back from the written forms of its commands (`parsing_stable`).
-/

namespace HackPlatform.Stack

open Source (located located?)

/-! ## Programs as lists of words -/

/-- The words of the lines that have any. -/
def programWords (lines : List Bytes) : List (List Bytes) := (lines.map Bytes.lineWords).filter (!·.isEmpty)

theorem programWords_cons (line : Bytes) (lines : List Bytes) : programWords (line :: lines) =
    if Bytes.lineWords line = [] then programWords lines else Bytes.lineWords line :: programWords lines := by
  unfold programWords
  rw [List.map_cons, List.filter_cons]
  by_cases h : Bytes.lineWords line = [] <;> simp [h]

theorem forall₂_spells_iff (lines : List Bytes) (items : List Command) :
    List.Forall₂ Command.Spells (programWords lines) items ↔
      (∀ line ∈ lines, ¬Faulty line) ∧ items = lines.filterMap fun line => (command? line).map Prod.snd := by
  induction lines generalizing items with
  | nil => simp [programWords]
  | cons line lines ih =>
    rw [programWords_cons, List.forall_mem_cons, List.filterMap_cons]
    by_cases hwords : Bytes.lineWords line = []
    · have hnone : (command? line).map Prod.snd = none := by
        rw [Option.eq_none_iff_forall_ne_some]
        intro c hc
        obtain ⟨hwell, hforall⟩ := (map_snd_command?_eq_some_iff line c).mp hc
        rw [hwords] at hforall
        cases c <;> simp [Command.words] at hforall
      rw [if_pos hwords, ih, hnone]
      simp [Faulty, hwords]
    · rw [if_neg hwords]
      cases hitem : (command? line).map Prod.snd with
      | none =>
        -- the words spell no command
        have hfaulty : Faulty line :=
          ⟨hwords, fun c hc => by simp [(map_snd_command?_eq_some_iff line c).mpr hc] at hitem⟩
        simp only [hfaulty, not_true_eq_false, false_and, iff_false]
        intro hforall
        obtain ⟨c, rest, hc, -, -⟩ := List.forall₂_cons_left_iff.mp hforall
        exact hfaulty.2 c hc
      | some c =>
        have hspells := (map_snd_command?_eq_some_iff line c).mp hitem
        have hsound : ¬Faulty line := fun h => h.2 c hspells
        have hunique : ∀ c', Command.Spells (Bytes.lineWords line) c' → c' = c := by
          intro c' hc'
          rw [← map_snd_command?_eq_some_iff, hitem] at hc'
          exact (Option.some.inj hc').symm
        rw [List.forall₂_cons_left_iff]
        constructor
        · rintro ⟨c', rest, hc', hrest, rfl⟩
          obtain ⟨hlines, hitems⟩ := (ih rest).mp hrest
          exact ⟨⟨hsound, hlines⟩, by rw [hunique c' hc', hitems]⟩
        · rintro ⟨⟨-, hlines⟩, rfl⟩
          exact ⟨c, _, hspells, (ih _).mpr ⟨hlines, rfl⟩, rfl⟩

theorem located_complaint?_eq_nil_iff (name : Bytes) (lines : List Bytes) :
    located name complaint? lines = [] ↔ ∀ line ∈ lines, ¬Faulty line := by
  have hitems := Source.map_item_located name complaint? lines
  rw [← List.map_eq_nil_iff (f := Located.item), hitems, List.filterMap_eq_nil_iff]
  simp only [faulty_iff, Option.map_eq_none_iff, Bool.not_eq_true, Option.isSome_eq_false_iff, Option.isNone_iff_eq_none]

/-- A program is accepted with some commands exactly if its words spell them. -/
theorem exists_parse_iff (name : Bytes) (source : Source) (items : List Command) :
    (∃ commands, parse name source = .ok commands ∧ commands.map Located.item = items) ↔
      source.fault = none ∧ List.Forall₂ Command.Spells (programWords source.lines) items := by
  simp only [parse_eq_ok_iff, forall₂_spells_iff, located_complaint?_eq_nil_iff]
  constructor
  · rintro ⟨commands, ⟨hfault, hsound, rfl⟩, rfl⟩
    exact ⟨hfault, hsound, Source.map_item_located name command? source.lines⟩
  · rintro ⟨hfault, hsound, rfl⟩
    exact ⟨_, ⟨hfault, hsound, rfl⟩, Source.map_item_located name command? source.lines⟩

theorem wellFormed_of_parse {name : Bytes} {source : Source} {commands : List (Located Command)}
    (h : parse name source = .ok commands) : ∀ c ∈ commands, c.item.WellFormed := by
  obtain ⟨-, -, rfl⟩ := (parse_eq_ok_iff _ _ _).mp h
  intro c hc
  obtain ⟨front, line, back, column, -, hcommand, -⟩ := Source.exists_of_mem_located name command? hc
  exact ((map_snd_command?_eq_some_iff line c.item).mp (by simp [hcommand])).1

/-! ## Written forms are read back -/

theorem isWord_of_isIdentifier {name : Bytes} (h : isIdentifier name = true) : name.IsWord := by
  have hbyte : ∀ b, isNameByte b = true → Bytes.isPlain b = true := by
    intro b hb
    simp only [isNameByte, Bytes.isLetter, Bytes.isDigit, Bytes.isPlain, Bool.or_eq_true, Bool.and_eq_true,
      decide_eq_true_eq, beq_iff_eq, bne_iff_ne, ne_eq, UInt8.le_iff_toNat_le, UInt8.lt_iff_toNat_lt, ← UInt8.toNat_inj,
      UInt8.reduceToNat] at hb ⊢
    omega
  cases name with
  | nil => exact Bool.noConfusion h
  | cons b rest =>
    simp only [isIdentifier, isWordOf, Bool.and_eq_true, List.all_eq_true] at h
    refine ⟨by simp, ?_⟩
    simp only [List.all_cons, Bool.and_eq_true, List.all_eq_true]
    exact ⟨hbyte b h.1.2, fun c hc => hbyte c (h.2 c hc)⟩

theorem isWord_ofInt {n : Int} (h : 0 ≤ n) : (Numeral.ofInt n).IsWord := by
  have hbyte : ∀ b, Bytes.isDigit b = true → Bytes.isPlain b = true := by
    intro b hb
    simp only [Bytes.isDigit, Bytes.isPlain, Bool.and_eq_true, decide_eq_true_eq, bne_iff_ne, ne_eq,
      UInt8.le_iff_toNat_le, UInt8.lt_iff_toNat_lt, ← UInt8.toNat_inj, UInt8.reduceToNat] at hb ⊢
    omega
  rw [Numeral.ofInt_of_nonneg h]
  refine ⟨Numeral.ofNat_ne_nil _, List.all_eq_true.mpr fun b hb => hbyte b (Numeral.isDigit_of_mem_ofNat _ b hb)⟩

/-- The word stands on its own as a field, and no word is shorter that reads the same. -/
def IsShortest (word : Bytes) : Prop := word.IsWord ∧ ∀ other, SameWord other word → word.length ≤ other.length

theorem isShortest_of_none {word : Bytes} (h : word.IsWord ∧ Numeral.readNat? word = none) : IsShortest word := by
  refine ⟨h.1, fun other hsame => Nat.le_of_eq ?_⟩
  rw [hsame.eq_of_none h.2]

theorem isShortest_of_isIdentifier {name : Bytes} (h : isIdentifier name = true) : IsShortest name :=
  isShortest_of_none ⟨isWord_of_isIdentifier h, readNat?_of_isIdentifier h⟩

theorem isShortest_ofInt {n : Int} (h : 0 ≤ n) : IsShortest (Numeral.ofInt n) := by
  refine ⟨isWord_ofInt h, fun other hsame => ?_⟩
  obtain ⟨hne, hdigits, hvalue⟩ := (Numeral.readNat?_eq_some_iff other _).mp (hsame.readNat?_eq.trans (readNat?_ofInt h))
  rw [Numeral.ofInt_of_nonneg h, ← hvalue]
  exact Numeral.length_ofNat_value_le hne hdigits

namespace Command

variable {c : Command}

theorem WellFormed.isShortest_of_mem (h : c.WellFormed) : ∀ word ∈ c.words, IsShortest word := by
  have hops : ∀ op ∈ Op.all, op.name.IsWord ∧ Numeral.readNat? op.name = none := by unfold Bytes.IsWord; decide
  have hsegments : ∀ segment ∈ Segment.all, segment.name.IsWord ∧ Numeral.readNat? segment.name = none := by
    unfold Bytes.IsWord; decide
  have hkinds : ∀ kind ∈ Kind.keywords, kind.name.IsWord ∧ Numeral.readNat? kind.name = none := by unfold Bytes.IsWord; decide
  have hkind : ∀ kind ∈ Kind.keywords, IsShortest kind.name := fun kind hmem => isShortest_of_none (hkinds kind hmem)
  have hsegment : ∀ segment ∈ Segment.all, IsShortest segment.name := fun segment hmem =>
    isShortest_of_none (hsegments segment hmem)
  cases c with
  | arithmetic op => simpa [words] using isShortest_of_none (hops op h)
  | push segment index => simpa [words] using ⟨hkind .push (by decide), hsegment segment h.1, isShortest_ofInt h.2.1⟩
  | pop segment index => simpa [words] using ⟨hkind .pop (by decide), hsegment segment h.1, isShortest_ofInt h.2.2⟩
  | label name => simpa [words] using ⟨hkind .label (by decide), isShortest_of_isIdentifier h⟩
  | goto name => simpa [words] using ⟨hkind .goto (by decide), isShortest_of_isIdentifier h⟩
  | ifGoto name => simpa [words] using ⟨hkind .ifGoto (by decide), isShortest_of_isIdentifier h⟩
  | function name count =>
    simpa [words] using ⟨hkind .function (by decide), isShortest_of_isIdentifier h.1, isShortest_ofInt h.2⟩
  | call name count => simpa [words] using ⟨hkind .call (by decide), isShortest_of_isIdentifier h.1, isShortest_ofInt h.2⟩
  | «return» => simpa [words, kind] using hkind .return (by decide)
  | unknown code => exact False.elim h

theorem words_ne_nil (c : Command) : c.words ≠ [] := by
  cases c <;> simp [words]

theorem sum_length_le_of_same {words others : List Bytes} (h : List.Forall₂ SameWord others words)
    (hshort : ∀ word ∈ words, IsShortest word) : (words.map (·.length + 1)).sum ≤ (others.map (·.length + 1)).sum := by
  induction h with
  | nil => simp
  | cons hsame _ ih =>
    rw [List.forall_mem_cons] at hshort
    have hfirst := hshort.1.2 _ hsame
    have hrest := ih hshort.2
    simp only [List.map_cons, List.sum_cons]
    omega

theorem Spells.length_text_le {line : Bytes} (h : Spells (Bytes.lineWords line) c) : c.text.length ≤ line.length := by
  have hle := sum_length_le_of_same h.2 h.1.isShortest_of_mem
  have hne : Bytes.lineWords line ≠ [] := by
    intro hnil
    have hforall := h.2
    rw [hnil] at hforall
    exact c.words_ne_nil (List.forall₂_nil_left_iff.mp hforall)
  have hwritten := Bytes.length_joinWith [32] c.words_ne_nil
  have hline := Bytes.length_joinWith [32] hne
  have hfits := Bytes.length_joinWith_lineWords_le line
  rw [List.length_singleton] at hwritten hline
  rw [c.text_eq]
  omega

namespace WellFormed

variable (h : c.WellFormed)
include h

theorem byte_text : ∀ b ∈ c.text, b = 32 ∨ Bytes.isPlain b = true := by
  intro b hb
  rw [c.text_eq] at hb
  exact Bytes.spaced_byte (fun word hword => (h.isShortest_of_mem word hword).1) hb

theorem fields_text : Bytes.fields (Bytes.beforeComment c.text) = Bytes.spaced 1 c.words := by
  rw [c.text_eq, Bytes.fields_joinWith fun word hword => (h.isShortest_of_mem word hword).1]

theorem lineWords_text : Bytes.lineWords c.text = c.words := by
  rw [Bytes.lineWords_eq, h.fields_text, Bytes.map_text_spaced]

theorem spells_words : Spells c.words c := ⟨h, List.forall₂_refl _⟩

theorem command?_text : command? c.text = some (1, c) := by
  obtain ⟨word, rest, hwords⟩ := List.exists_cons_of_ne_nil c.words_ne_nil
  have hspells := h.spells_words
  rw [hwords] at hspells
  refine command?_eq_some_iff.mpr ⟨⟨word, 1⟩, Bytes.spaced (1 + word.length + 1) rest, ?_, rfl, ?_⟩
  · rw [h.fields_text, hwords, Bytes.spaced]
  · rwa [readFields_eq_ok_iff, Bytes.map_text_spaced]

end WellFormed

end Command

theorem parse_text {c : Command} (h : c.WellFormed) (name : Bytes) (hlength : c.text.length ≤ Source.lineLimit) :
    parse name (Source.ofBytes c.text) = .ok [⟨{ file := name, line := 1, column := 1 }, c⟩] := by
  have hne : c.text ≠ [] := by
    intro hnil
    have hcommand := h.command?_text
    have hnone : command? [] = none := by decide
    simp [hnil, hnone] at hcommand
  have hsource := Source.ofBytes_line hne (fun hb => absurd (h.byte_text 10 hb) (by decide))
    (fun hb => absurd (h.byte_text 13 hb) (by decide)) hlength
  have hsound : ¬Faulty c.text := by
    rw [Faulty, h.lineWords_text]
    exact fun hfaulty => hfaulty.2 c h.spells_words
  rw [hsource, parse_eq_ok_iff, located_complaint?_eq_nil_iff]
  refine ⟨rfl, by simpa using hsound, ?_⟩
  simp [located, Source.locatedFrom, located?, h.command?_text, Position.behind]

/-- A command is read back from its written form exactly if it is well-formed. -/
theorem parse_text_eq_ok_iff (c : Command) (name : Bytes) (hlength : c.text.length ≤ Source.lineLimit) :
    (∃ pos, parse name (Source.ofBytes c.text) = .ok [⟨pos, c⟩]) ↔ c.WellFormed := by
  constructor
  · rintro ⟨pos, h⟩
    exact wellFormed_of_parse h ⟨pos, c⟩ (List.mem_singleton.mpr rfl)
  · intro h
    exact ⟨_, parse_text h name hlength⟩

/-! ## Whole programs -/

/-- Commands in their written forms, one a line. -/
def printed (commands : List Command) : Bytes := commands.flatMap (·.text ++ [10])

theorem programWords_ofBytes {text : Bytes} (h : ∀ line ∈ text.splitOn 10, line.length ≤ Source.lineLimit) :
    programWords (Source.ofBytes text).lines = programWords (text.splitOn 10) :=
  Bytes.filter_map_lines Bytes.lineWords_append_return (by decide) text h

theorem splitOn_printed {commands : List Command} (h : ∀ c ∈ commands, c.WellFormed) :
    (printed commands).splitOn 10 = commands.map Command.text ++ [[]] := by
  have hlines : ∀ line ∈ commands.map Command.text, 10 ∉ line := by
    intro line hline hmem
    obtain ⟨c, hc, rfl⟩ := List.mem_map.mp hline
    exact absurd ((h c hc).byte_text 10 hmem) (by decide)
  rw [← Bytes.splitOn_flatMap_lines hlines, printed, List.flatMap_map]

theorem programWords_printed {commands : List Command} (h : ∀ c ∈ commands, c.WellFormed) :
    programWords ((printed commands).splitOn 10) = commands.map Command.words := by
  have hwords : ∀ c ∈ commands, (Bytes.lineWords ∘ Command.text) c = c.words := fun c hc => (h c hc).lineWords_text
  rw [splitOn_printed h, programWords, List.map_append, List.map_map, List.map_congr_left hwords, List.filter_append,
    List.filter_eq_self.mpr]
  · exact List.append_nil _
  · intro words hmem
    obtain ⟨c, -, rfl⟩ := List.mem_map.mp hmem
    simp [c.words_ne_nil]

theorem forall₂_spells_of_same {others words : List (List Bytes)} {items : List Command}
    (hsame : List.Forall₂ (List.Forall₂ SameWord) others words) (h : List.Forall₂ Command.Spells words items) :
    List.Forall₂ Command.Spells others items := by
  induction hsame generalizing items with
  | nil => exact h
  | cons hfirst _ ih =>
    obtain ⟨c, rest, hc, hrest, rfl⟩ := List.forall₂_cons_left_iff.mp h
    exact .cons (hc.of_same hfirst) (ih hrest)

theorem length_text_le_of_parse {name text : Bytes} {commands : List (Located Command)}
    (h : parse name (Source.ofBytes text) = .ok commands) : ∀ c ∈ commands, c.item.text.length ≤ Source.lineLimit := by
  obtain ⟨-, -, rfl⟩ := (parse_eq_ok_iff _ _ _).mp h
  intro c hc
  obtain ⟨front, line, back, column, hlines, hcommand, -⟩ := Source.exists_of_mem_located name command? hc
  have hspells := (map_snd_command?_eq_some_iff line c.item).mp (by simp [hcommand])
  have hmem : line ∈ (Source.ofBytes text).lines := by simp [hlines]
  exact Nat.le_trans hspells.length_text_le (Bytes.length_le_of_mem_lines hmem)

/-- A program that is accepted is read back from the written forms of its commands. Nor does anything else change it that leaves the
words of its lines, or only their numbers, as they are. -/
theorem parsing_stable {name text : Bytes} {commands : List (Located Command)}
    (h : parse name (Source.ofBytes text) = .ok commands) (name' : Bytes) :
    (∃ again, parse name' (Source.ofBytes (printed (commands.map Located.item))) = .ok again ∧
        again.map Located.item = commands.map Located.item) ∧
      ∀ other, (∀ line ∈ other.splitOn 10, line.length ≤ Source.lineLimit) →
        List.Forall₂ (List.Forall₂ SameWord) (programWords (other.splitOn 10)) (programWords (text.splitOn 10)) →
        ∃ again, parse name' (Source.ofBytes other) = .ok again ∧ again.map Located.item = commands.map Located.item := by
  obtain ⟨hfault, hspells⟩ := (exists_parse_iff name _ _).mp ⟨commands, h, rfl⟩
  have hlines := (Bytes.fault_ofBytes_eq_none_iff text).mp hfault
  have hwell : ∀ c ∈ commands.map Located.item, c.WellFormed := by
    simpa using wellFormed_of_parse h
  constructor
  · have hprinted : ∀ line ∈ (printed (commands.map Located.item)).splitOn 10, line.length ≤ Source.lineLimit := by
      have hlengths : ∀ c ∈ commands, c.item.text.length ≤ Source.lineLimit := length_text_le_of_parse h
      simpa [splitOn_printed hwell, or_imp, forall_and] using hlengths
    rw [exists_parse_iff, Bytes.fault_ofBytes_eq_none_iff, programWords_ofBytes hprinted, programWords_printed hwell,
      List.forall₂_map_left_iff, List.forall₂_same]
    exact ⟨hprinted, fun c hc => (hwell c hc).spells_words⟩
  · intro other hother hsame
    rw [exists_parse_iff, Bytes.fault_ofBytes_eq_none_iff, programWords_ofBytes hother]
    rw [programWords_ofBytes hlines] at hspells
    exact ⟨hother, forall₂_spells_of_same hsame hspells⟩

theorem parsing_stable_layout :
    let text := ascii " push" ++ [0xE3, 0x80, 0x80] ++ ascii "constant 007\r\n\r\n// note\n\tadd//x\nlabel a.b"
    let other := ascii "push constant 7\nadd\nlabel a.b\n"
    let commands : List (Located Command) :=
      [⟨⟨[], 1, 1, 2⟩, .push .constant 7⟩, ⟨⟨[], 31, 4, 2⟩, .arithmetic .add⟩, ⟨⟨[], 38, 5, 1⟩, .label (ascii "a.b")⟩]
    parse [] (Source.ofBytes text) = .ok commands ∧
      (∃ again, parse [] (Source.ofBytes (printed (commands.map Located.item))) = .ok again ∧
        again.map Located.item = commands.map Located.item) ∧
      ∃ again, parse [] (Source.ofBytes other) = .ok again ∧ again.map Located.item = commands.map Located.item := by
  intro text other commands
  have hparse : parse [] (Source.ofBytes text) = .ok commands := by decide +kernel
  have hwords : programWords (text.splitOn 10) =
      [[ascii "push", ascii "constant", ascii "007"], [ascii "add"], [ascii "label", ascii "a.b"]] := by decide +kernel
  have hother : programWords (other.splitOn 10) =
      [[ascii "push", ascii "constant", ascii "7"], [ascii "add"], [ascii "label", ascii "a.b"]] := by decide +kernel
  obtain ⟨hprinted, hsame⟩ := parsing_stable hparse []
  refine ⟨hparse, hprinted, hsame other (by decide +kernel) ?_⟩
  have hindex : SameWord (ascii "7") (ascii "007") := .inr ⟨7, by decide, by decide⟩
  rw [hwords, hother]
  exact .cons (.cons (.refl _) (.cons (.refl _) (.cons hindex .nil))) (.cons (List.forall₂_refl _) (.cons (List.forall₂_refl _) .nil))

end HackPlatform.Stack
