import HackPlatform.Proofs.Stack.Reading

/-!
# The places of commands and complaints

A command is placed at its keyword, and a complaint at the field that it is about (`Cause.Blames`). Line and column are those of the
field. The offset is too small by the number of carriage returns at the ends of the lines before, because these are not counted
(`positions_exact_iff`).
-/

namespace HackPlatform.Stack

/-- A cause blames a field, given by its number on the line and its text. -/
inductive Cause.Blames : Cause → Nat → Bytes → Prop
  | unknownCommand {word : Bytes} (h : ∀ c : Command, c.WellFormed → c.words.head? ≠ some word) :
      Blames (.unknownCommand word) 0 word
  | wrongArity {word : Bytes} {expected got : Nat} (hne : got ≠ expected)
      (h : ∀ c : Command, c.WellFormed → c.words.head? = some word → c.words.length = expected + 1) :
      Blames (.wrongArity word expected got) 0 word
  | unknownSegment {word : Bytes} (h : ∀ segment ∈ Segment.all, segment.name ≠ word) : Blames (.unknownSegment word) 1 word
  | popToConstant : Blames .popToConstant 1 Segment.constant.name
  | invalidIdentifier {word : Bytes} (h : isIdentifier word = false) : Blames (.invalidIdentifier word) 1 word
  | invalidIndex {word : Bytes} (h : ∀ n, Numeral.readNat? word = some n → Numeral.maxInt64 < n) : Blames (.invalidIndex word) 2 word
  | constantOutOfRange {word : Bytes} {index : Int64} (hvalue : Numeral.readNat? word = some index.toInt.toNat)
      (h : 32767 < index.toInt) : Blames (.constantOutOfRange index) 2 word

theorem Command.WellFormed.lookup {c : Command} (h : c.WellFormed) {word : Bytes} (hword : c.words.head? = some word) :
    ((Op.ofName? word).isSome = true ∧ c.words.length = 1) ∨
      Op.ofName? word = none ∧ Kind.ofName? word = some c.kind ∧ c.words.length = c.kind.arity := by
  rcases h.cases_kind with ⟨op, hmem, rfl⟩ | hmem
  · obtain rfl : op.name = word := Option.some.inj hword
    rw [(op_ofName?_eq_some_iff _ _).mpr ⟨hmem, .refl _⟩]
    exact .inl ⟨rfl, rfl⟩
  · obtain ⟨rest, hwords, harity⟩ := Command.words_eq_cons hmem
    obtain rfl : c.kind.name = word := by simpa [hwords] using hword
    have hplain : ∀ kind ∈ Kind.keywords, Op.ofName? kind.name = none := by decide
    refine .inr ⟨hplain _ hmem, (kind_ofName?_eq_some_iff _ _).mpr ⟨hmem, .refl _⟩, ?_⟩
    rw [hwords, ← harity, List.length_cons]

section Fields

variable {cause : Cause} {column : Nat}

theorem blames_of_readIndex {f : Bytes.Field} (h : readIndex f = .error ⟨cause, column⟩) :
    column = f.column ∧ cause.Blames 2 f.text := by
  unfold readIndex Complaint.at at h
  split at h
  · rename_i n hn
    split at h
    · simp at h
    · rename_i hlarge
      obtain ⟨rfl, rfl⟩ := Complaint.mk.inj (Except.error.inj h)
      refine ⟨rfl, .invalidIndex fun m hm => ?_⟩
      obtain rfl : n = m := Option.some.inj (hn.symm.trans hm)
      omega
  · rename_i hnone
    obtain ⟨rfl, rfl⟩ := Complaint.mk.inj (Except.error.inj h)
    exact ⟨rfl, .invalidIndex fun n hn => by simp [hnone] at hn⟩

theorem blames_of_readName {f : Bytes.Field} (h : readName f = .error ⟨cause, column⟩) :
    column = f.column ∧ cause.Blames 1 f.text := by
  unfold readName Complaint.at at h
  split at h
  · simp at h
  · rename_i hname
    obtain ⟨rfl, rfl⟩ := Complaint.mk.inj (Except.error.inj h)
    exact ⟨rfl, .invalidIdentifier (by simpa using hname)⟩

theorem blames_of_readAccess {kind : Kind} {first second : Bytes.Field}
    (h : readAccess kind first second = .error ⟨cause, column⟩) :
    (column = first.column ∧ cause.Blames 1 first.text) ∨ column = second.column ∧ cause.Blames 2 second.text := by
  unfold readAccess Complaint.at at h
  split at h
  · rename_i hnone
    obtain ⟨rfl, rfl⟩ := Complaint.mk.inj (Except.error.inj h)
    refine .inl ⟨rfl, .unknownSegment fun segment hmem hname => ?_⟩
    simp [(segment_ofName?_eq_some_iff _ segment).mpr ⟨hmem, .inl hname.symm⟩] at hnone
  · rename_i segment hsegment
    obtain ⟨-, hname⟩ := (segment_ofName?_eq_some_iff _ _).mp hsegment
    split at h
    · rename_i e hindex
      obtain rfl := Except.error.inj h
      exact .inr (blames_of_readIndex hindex)
    · rename_i index hindex
      obtain ⟨hnonneg, hnumber⟩ := (readIndex_eq_ok_iff _ _).mp hindex
      split at h
      · rename_i hpop
        obtain ⟨rfl, rfl⟩ := Complaint.mk.inj (Except.error.inj h)
        rw [hpop.1] at hname
        rw [hname.eq_of_none (by decide)]
        exact .inl ⟨rfl, .popToConstant⟩
      · split at h
        · rename_i hconstant
          obtain ⟨rfl, rfl⟩ := Complaint.mk.inj (Except.error.inj h)
          refine .inr ⟨rfl, .constantOutOfRange ?_ (Int64.lt_iff_toInt_lt.mp hconstant.2)⟩
          rw [hnumber.readNat?_eq, readNat?_ofInt hnonneg]
        · simp at h

theorem blames_of_readArguments {kind : Kind} {arguments : List Bytes.Field}
    (h : readArguments kind arguments = .error ⟨cause, column⟩) :
    ∃ number field, arguments[number]? = some field ∧ field.column = column ∧ cause.Blames (number + 1) field.text := by
  match arguments with
  | [] => simp [readArguments] at h
  | [first] =>
    cases hname : readName first with
    | ok name => simp [readArguments, hname] at h
    | error e =>
      obtain rfl : e = ⟨cause, column⟩ := by simpa [readArguments, hname] using h
      obtain ⟨rfl, hblames⟩ := blames_of_readName hname
      exact ⟨0, first, rfl, rfl, hblames⟩
  | first :: second :: rest =>
    have hfields : (column = first.column ∧ cause.Blames 1 first.text) ∨ column = second.column ∧ cause.Blames 2 second.text := by
      rw [readArguments] at h
      split at h
      · exact blames_of_readAccess h
      · cases hname : readName first with
        | error e =>
          obtain rfl : e = ⟨cause, column⟩ := by simpa [hname] using h
          exact .inl (blames_of_readName hname)
        | ok name =>
          cases hindex : readIndex second with
          | error e =>
            obtain rfl : e = ⟨cause, column⟩ := by simpa [hname, hindex] using h
            exact .inr (blames_of_readIndex hindex)
          | ok index => simp [hname, hindex] at h
    rcases hfields with ⟨rfl, hblames⟩ | ⟨rfl, hblames⟩
    · exact ⟨0, first, rfl, rfl, hblames⟩
    · exact ⟨1, second, rfl, rfl, hblames⟩

/-- A complaint is placed at the field that it blames. -/
theorem blames_of_readFields {keyword : Bytes.Field} {arguments : List Bytes.Field}
    (h : readFields keyword arguments = .error ⟨cause, column⟩) :
    ∃ number field, (keyword :: arguments)[number]? = some field ∧ field.column = column ∧ cause.Blames number field.text := by
  unfold readFields readCommand Complaint.at at h
  split at h
  · rename_i op hop
    split at h
    · simp at h
    · rename_i harity
      obtain ⟨rfl, rfl⟩ := Complaint.mk.inj (Except.error.inj h)
      refine ⟨0, keyword, rfl, rfl, .wrongArity (by simpa [Kind.arity] using harity) fun c hwell hword => ?_⟩
      rcases hwell.lookup hword with ⟨-, hlength⟩ | ⟨hnone, -⟩
      · exact hlength
      · simp [hop] at hnone
  · rename_i hop
    split at h
    · rename_i kind hkind
      split at h
      · obtain ⟨number, field, hfield, hcolumn, hblames⟩ := blames_of_readArguments h
        exact ⟨number + 1, field, hfield, hcolumn, hblames⟩
      · rename_i harity
        obtain ⟨rfl, rfl⟩ := Complaint.mk.inj (Except.error.inj h)
        have hpos : 1 ≤ kind.arity := by cases kind <;> simp [Kind.arity]
        refine ⟨0, keyword, rfl, rfl, .wrongArity (by omega) fun c hwell hword => ?_⟩
        rcases hwell.lookup hword with ⟨hsome, -⟩ | ⟨-, hfound, hlength⟩
        · simp [hop] at hsome
        · obtain rfl : kind = c.kind := Option.some.inj (hkind.symm.trans hfound)
          omega
    · rename_i hkind
      obtain ⟨rfl, rfl⟩ := Complaint.mk.inj (Except.error.inj h)
      refine ⟨0, keyword, rfl, rfl, .unknownCommand fun c hwell hword => ?_⟩
      rcases hwell.lookup hword with ⟨hsome, -⟩ | ⟨-, hfound, -⟩
      · simp [hop] at hsome
      · simp [hkind] at hfound

end Fields

theorem head?_words_of_readFields {keyword : Bytes.Field} {arguments : List Bytes.Field} {c : Command}
    (h : readFields keyword arguments = .ok c) : c.words.head? = some keyword.text := by
  obtain ⟨hwell, hwords⟩ := (readFields_eq_ok_iff _ _ _).mp h
  have hnames : (∀ op ∈ Op.all, Numeral.readNat? op.name = none) ∧ ∀ kind ∈ Kind.keywords, Numeral.readNat? kind.name = none := by
    decide
  rcases hwell.cases_kind with ⟨op, hmem, rfl⟩ | hmem
  · rw [(List.forall₂_cons.mp hwords).1.eq_of_none (hnames.1 op hmem)]
    rfl
  · obtain ⟨rest, hcons, -⟩ := Command.words_eq_cons hmem
    rw [hcons] at hwords ⊢
    rw [(List.forall₂_cons.mp hwords).1.eq_of_none (hnames.2 c.kind hmem)]
    rfl

/-! ## Places in the text -/

/-- A command is at its keyword. -/
def Command.ShowsIn (c : Command) (number : Nat) (token : Bytes) : Prop := number = 0 ∧ c.words.head? = some token

theorem showsIn_of_command? {line : Bytes} {column : Nat} {c : Command} (h : command? line = some (column, c)) :
    ∃ number field, (Bytes.fields (Bytes.beforeComment line))[number]? = some field ∧ field.column = column ∧
      c.ShowsIn number field.text := by
  obtain ⟨keyword, arguments, hfields, hcolumn, hread⟩ := command?_eq_some_iff.mp h
  exact ⟨0, keyword, by rw [hfields]; rfl, hcolumn, rfl, head?_words_of_readFields hread⟩

theorem blames_of_complaint? {line : Bytes} {column : Nat} {cause : Cause} (h : complaint? line = some (column, cause)) :
    ∃ number field, (Bytes.fields (Bytes.beforeComment line))[number]? = some field ∧ field.column = column ∧
      cause.Blames number field.text := by
  obtain ⟨keyword, arguments, hfields, hread⟩ := complaint?_eq_some_iff.mp h
  rw [hfields]
  exact blames_of_readFields hread

/-- What is found on the lines of a text is placed in their order, at the tokens where it shows. Line and column are exact; the offset is
so exactly if no line before ends with a carriage return. -/
def PlacedAtTokens {α : Type} (text name : Bytes) (shows : α → Nat → Bytes → Prop) (found : List (Located α)) : Prop :=
  (found.map (·.pos.line)).Pairwise (· < ·) ∧ ∀ x ∈ found, ∃ number before token, shows x.item number token ∧
    Bytes.IsToken text number before token ∧ x.pos.NamesPlace name before ∧
    (x.pos.offset = before.length ↔ ¬[13, 10] <:+: before)

theorem placedAtTokens_of_isPrefix {α : Type} {text : Bytes} (hlines : ∀ line ∈ text.splitOn 10, line.length ≤ Source.lineLimit)
    (name : Bytes) {f : Bytes → Option (Nat × α)} {shows : α → Nat → Bytes → Prop}
    (hshows : ∀ line column item, f line = some (column, item) → ∃ number field,
      (Bytes.fields (Bytes.beforeComment line))[number]? = some field ∧ field.column = column ∧ shows item number field.text)
    {found : List (Located α)} (h : found <+: Source.located name f (Source.ofBytes text).lines) :
    PlacedAtTokens text name shows found := by
  refine ⟨(Source.pairwise_line_located name f _).sublist (h.sublist.map _), fun x hx => ?_⟩
  obtain ⟨number, before, token, hshow, htoken, hplace⟩ :=
    Source.exists_token_of_mem_located name f hlines shows hshows (h.subset hx)
  exact ⟨number, before, token, hshow, htoken, hplace, hplace.offset_eq_iff⟩

/-- Commands are placed at their keywords, and complaints at the fields that they blame. -/
theorem positions_exact_iff (name : Bytes) {text : Bytes} (h : ∀ line ∈ text.splitOn 10, line.length ≤ Source.lineLimit) :
    (∀ commands, parse name (Source.ofBytes text) = .ok commands → PlacedAtTokens text name Command.ShowsIn commands) ∧
      ∀ e, parse name (Source.ofBytes text) = .error e →
        ∃ entries, e = .rejected entries ∧ PlacedAtTokens text name Cause.Blames entries := by
  constructor
  · intro commands hparse
    obtain ⟨-, -, rfl⟩ := (parse_eq_ok_iff _ _ _).mp hparse
    exact placedAtTokens_of_isPrefix h name (fun _ _ _ => showsIn_of_command?) List.prefix_rfl
  · intro e hparse
    obtain ⟨entries, rfl⟩ := exists_entries_of_parse ((Bytes.fault_ofBytes_eq_none_iff text).mpr h) hparse
    obtain ⟨-, hentries⟩ := entries_of_parse hparse
    refine ⟨entries, rfl, placedAtTokens_of_isPrefix h name (fun _ _ _ => blames_of_complaint?) ?_⟩
    rw [hentries]
    exact List.take_prefix _ _

theorem positions_exact_iff_crlf :
    let text := ascii "\tadd // sum\r\n\n  pop constant 007\n"
    (∀ line ∈ text.splitOn 10, line.length ≤ Source.lineLimit) ∧
      parse (ascii "a.vm") (Source.ofBytes text) =
        .error (.rejected [⟨{ file := ascii "a.vm", offset := 19, line := 3, column := 7 }, .popToConstant⟩]) ∧
      PlacedAtTokens text (ascii "a.vm") Cause.Blames
        [⟨{ file := ascii "a.vm", offset := 19, line := 3, column := 7 }, .popToConstant⟩] := by
  intro text
  have hlines : ∀ line ∈ text.splitOn 10, line.length ≤ Source.lineLimit := by decide +kernel
  have hparse : parse (ascii "a.vm") (Source.ofBytes text) =
      .error (.rejected [⟨{ file := ascii "a.vm", offset := 19, line := 3, column := 7 }, .popToConstant⟩]) := by decide +kernel
  obtain ⟨entries, hentries, hplaced⟩ := (positions_exact_iff (ascii "a.vm") hlines).2 _ hparse
  obtain rfl := Error.rejected.inj hentries
  exact ⟨hlines, hparse, hplaced⟩

/-- Behind a line with a carriage return at its end, a command is not at its offset. -/
theorem offset_misses_token :
    let text := ascii "add\r\nsub\n"
    parse (ascii "a.vm") (Source.ofBytes text) =
        .ok [⟨{ file := ascii "a.vm", offset := 0, line := 1, column := 1 }, .arithmetic .add⟩,
          ⟨{ file := ascii "a.vm", offset := 4, line := 2, column := 1 }, .arithmetic .sub⟩] ∧
      ¬(Op.sub.name <+: text.drop 4) ∧ Op.sub.name <+: text.drop 5 := by
  decide +kernel

end HackPlatform.Stack
