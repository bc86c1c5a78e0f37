import HackPlatform.Proofs.Stack.Spelling
import HackPlatform.Proofs.Text.Reading

/-!
# Reading stack programs

What the reader makes of a line depends on nothing but the line: a command (`command?`), a complaint (`complaint?`), or nothing
at all. After some lines the draft holds what is found on them, each with its place (`Draft.HasRead.readLines`). So a program is
accepted if there is nothing to complain about, and then it has the commands of all lines (`parse_eq_ok_iff`); otherwise the
first ten complaints are reported (`entries_of_parse`).
-/

namespace HackPlatform.Stack

open Source (located located? numbers)

/-! ## Single lines -/

/-- The command of a line, with the column of its keyword. -/
def command? (line : Bytes) : Option (Nat × Command) :=
  match Bytes.fields (Bytes.beforeComment line) with
  | [] => none
  | keyword :: arguments =>
    match readFields keyword arguments with
    | .ok c => some (keyword.column, c)
    | .error _ => none

/-- What is wrong with a line, with the column where it shows. -/
def complaint? (line : Bytes) : Option (Nat × Cause) :=
  match Bytes.fields (Bytes.beforeComment line) with
  | [] => none
  | keyword :: arguments =>
    match readFields keyword arguments with
    | .ok _ => none
    | .error e => some (e.column, e.cause)

theorem command?_eq_some_iff {line : Bytes} {column : Nat} {c : Command} : command? line = some (column, c) ↔
    ∃ keyword arguments, Bytes.fields (Bytes.beforeComment line) = keyword :: arguments ∧ keyword.column = column ∧
      readFields keyword arguments = .ok c := by
  unfold command?
  rcases Bytes.fields (Bytes.beforeComment line) with _ | ⟨keyword, arguments⟩
  · simp
  · cases hread : readFields keyword arguments with
    | ok found => simp [hread]
    | error e => simp [hread]

theorem complaint?_eq_some_iff {line : Bytes} {column : Nat} {cause : Cause} : complaint? line = some (column, cause) ↔
    ∃ keyword arguments, Bytes.fields (Bytes.beforeComment line) = keyword :: arguments ∧
      readFields keyword arguments = .error ⟨cause, column⟩ := by
  unfold complaint?
  rcases Bytes.fields (Bytes.beforeComment line) with _ | ⟨keyword, arguments⟩
  · simp
  · cases hread : readFields keyword arguments with
    | ok c => simp [hread]
    | error e =>
      cases e
      simp [hread, and_comm]

theorem map_snd_command?_eq_some_iff (line : Bytes) (c : Command) :
    (command? line).map Prod.snd = some c ↔ Command.Spells (Bytes.lineWords line) c := by
  rw [Bytes.lineWords_eq]
  unfold command?
  rcases Bytes.fields (Bytes.beforeComment line) with _ | ⟨keyword, arguments⟩
  · simp only [Option.map_none, List.map_nil, reduceCtorEq, false_iff]
    rintro ⟨hwell, hwords⟩
    cases c <;> simp [Command.words] at hwords
  · rw [List.map_cons, ← readFields_eq_ok_iff]
    cases hread : readFields keyword arguments <;> simp [hread]

/-- There is something wrong with a line if it has words and they spell no command. -/
def Faulty (line : Bytes) : Prop := Bytes.lineWords line ≠ [] ∧ ∀ c, ¬Command.Spells (Bytes.lineWords line) c

theorem faulty_iff (line : Bytes) : Faulty line ↔ (complaint? line).isSome = true := by
  unfold Faulty complaint?
  rw [Bytes.lineWords_eq]
  rcases Bytes.fields (Bytes.beforeComment line) with _ | ⟨keyword, arguments⟩
  · simp
  · simp only [List.map_cons, ← readFields_eq_ok_iff]
    cases readFields keyword arguments <;> simp

instance (line : Bytes) : Decidable (Faulty line) := decidable_of_iff _ (faulty_iff line).symm

/-! ## The draft -/

namespace Draft

/-- What a draft holds after some lines. -/
structure HasRead (name : Bytes) (lines : List Bytes) (d : Draft) : Prop where
  commands : d.commands.toList = located name command? lines
  errors : d.errors.reverse = located name complaint? lines
  pos : d.pos = { file := name, line := lines.length, offset := ((lines.map (·.length + 1)).sum : Nat) }

variable {name : Bytes} {lines : List Bytes} {d : Draft}

theorem HasRead.place (h : d.HasRead name lines) (column : Nat) : d.place column = .behind name lines column := by
  simp [Draft.place, h.pos, Position.behind]

theorem HasRead.readLine (h : d.HasRead name lines) (line : Bytes) : (d.readLine line).HasRead name (lines ++ [line]) := by
  have hpos : ∀ d' : Draft, d'.pos = d.pos → (d'.leaveLine line.length).pos =
      { file := name, line := (lines ++ [line]).length, offset := (((lines ++ [line]).map (·.length + 1)).sum : Nat) } := by
    intro d' hd'
    simp [Draft.leaveLine, hd', h.pos]
    omega
  have hplace := h.place
  unfold Draft.readLine
  rcases hfields : Bytes.fields (Bytes.beforeComment line) with _ | ⟨keyword, arguments⟩
  · refine ⟨?_, ?_, hpos d rfl⟩
    · simpa [Source.located_concat, located?, command?, hfields, Draft.leaveLine] using h.commands
    · simpa [Source.located_concat, located?, complaint?, hfields, Draft.leaveLine] using h.errors
  · rcases hread : readFields keyword arguments with e | c
    · refine ⟨?_, ?_, hpos _ (by simp only [hread])⟩
      · simpa [Source.located_concat, located?, command?, hfields, hread, Draft.leaveLine] using h.commands
      · simp [Source.located_concat, located?, complaint?, hfields, hread, Draft.leaveLine, h.errors, hplace]
    · refine ⟨?_, ?_, hpos _ (by simp only [hread])⟩
      · simp [Source.located_concat, located?, command?, hfields, hread, Draft.leaveLine, h.commands, hplace]
      · simpa [Source.located_concat, located?, complaint?, hfields, hread, Draft.leaveLine] using h.errors

theorem HasRead.readLines (h : d.HasRead name lines) (others : List Bytes) :
    (others.foldl Draft.readLine d).HasRead name (lines ++ others) := by
  induction others generalizing d lines with
  | nil => simpa using h
  | cons line others ih => simpa using ih (h.readLine line)

theorem HasRead.isFull_iff (h : d.HasRead name lines) :
    d.isFull = true ↔ maxErrors ≤ (located name complaint? lines).length := by
  simp [Draft.isFull, ← h.errors]

end Draft

/-! ## Programs -/

/-- What parsing gives, from what is found on the lines that are read: all of them, or those up to the tenth complaint. -/
theorem parse_cases (name : Bytes) (source : Source) :
    ∃ n ≤ source.lines.length, (located name complaint? (source.lines.take n)).length ≤ maxErrors ∧
      (n < source.lines.length → (located name complaint? (source.lines.take n)).length = maxErrors) ∧
      ((∃ fault, source.fault = some fault ∧ parse name source = .error (.unreadable name fault)) ∨
        (n = source.lines.length → source.fault = none) ∧ parse name source =
          if located name complaint? (source.lines.take n) = [] then .ok (located name command? (source.lines.take n))
          else .error (.rejected (located name complaint? (source.lines.take n)))) := by
  obtain ⟨n, hn, hfeed, hbefore, hend⟩ := source.feed_eq Draft.isFull Draft.readLine { pos := { file := name } }
  have hstart : Draft.HasRead name [] { pos := { file := name } } := ⟨rfl, rfl, rfl⟩
  have hread := fun m => (hstart.readLines (source.lines.take m))
  simp only [List.nil_append] at hread
  have hmost : (located name complaint? (source.lines.take n)).length ≤ maxErrors := by
    cases n with
    | zero => simp [located, Source.locatedFrom]
    | succ n =>
      -- the reader was not full before the last line, which adds one complaint at most
      have hroom : ¬maxErrors ≤ (located name complaint? (source.lines.take n)).length := by
        rw [← (hread n).isFull_iff, hbefore n (by omega)]
        simp
      rw [List.take_succ_eq_append_getElem (by omega), Source.located_concat, List.length_append]
      have hone := Option.length_toList_le (o := located? name complaint? (source.lines.take n) source.lines[n])
      omega
  refine ⟨n, hn, hmost, fun hlt => ?_, ?_⟩
  · exact Nat.le_antisymm hmost ((hread n).isFull_iff.mp (hend hlt))
  · unfold parse
    rw [hfeed, ← (hread n).commands, ← (hread n).errors]
    cases hfault : if n = source.lines.length ∨ source.cut = true ∧ n + 1 = source.lines.length then source.fault else none with
    | some fault =>
      split at hfault
      · exact .inl ⟨fault, hfault, rfl⟩
      · simp at hfault
    | none => exact .inr ⟨fun hall => by simpa [hall] using hfault, by simp⟩

theorem parse_eq_ok_iff (name : Bytes) (source : Source) (commands : List (Located Command)) :
    parse name source = .ok commands ↔ source.fault = none ∧ located name complaint? source.lines = [] ∧
      commands = located name command? source.lines := by
  obtain ⟨n, hn, -, hfull, hresult⟩ := parse_cases name source
  -- without complaints all lines are read
  have hall : located name complaint? (source.lines.take n) = [] → n = source.lines.length := by
    intro hnone
    by_contra hne
    have hten := hfull (by omega)
    simp [hnone, maxErrors] at hten
  constructor
  · intro h
    rcases hresult with ⟨fault, -, hparse⟩ | ⟨hfault, hparse⟩
    · simp [hparse] at h
    · rw [h] at hparse
      split at hparse
      · rename_i hnone
        have hlength := hall hnone
        rw [hlength, List.take_length] at hparse hnone
        exact ⟨hfault hlength, hnone, Except.ok.inj hparse⟩
      · simp at hparse
  · rintro ⟨hfault, hnone, rfl⟩
    have hprefix := Source.located_take_isPrefix name complaint? n source.lines
    rw [hnone, List.prefix_nil] at hprefix
    rcases hresult with ⟨fault, hsome, -⟩ | ⟨-, hparse⟩
    · simp [hfault] at hsome
    · rw [hparse, if_pos hprefix, hall hprefix, List.take_length]

theorem entries_of_parse {name : Bytes} {source : Source} {entries : List (Located Cause)}
    (h : parse name source = .error (.rejected entries)) :
    entries ≠ [] ∧ entries = (located name complaint? source.lines).take maxErrors := by
  obtain ⟨n, hn, hmost, hfull, hresult⟩ := parse_cases name source
  rcases hresult with ⟨fault, -, hparse⟩ | ⟨-, hparse⟩
  · simp [hparse] at h
  · rw [h] at hparse
    split at hparse
    · simp at hparse
    · rename_i hsome
      obtain rfl := Error.rejected.inj (Except.error.inj hparse)
      refine ⟨hsome, ?_⟩
      by_cases hall : n = source.lines.length
      · rw [hall, List.take_length] at hmost ⊢
        exact (List.take_of_length_le hmost).symm
      · have hprefix := Source.located_take_isPrefix name complaint? n source.lines
        rw [List.prefix_iff_eq_take, hfull (by omega)] at hprefix
        exact hprefix

theorem exists_entries_of_parse {name : Bytes} {source : Source} (hfault : source.fault = none) {e : Error}
    (h : parse name source = .error e) : ∃ entries, e = .rejected entries := by
  obtain ⟨n, -, -, -, hresult⟩ := parse_cases name source
  rcases hresult with ⟨fault, hsome, -⟩ | ⟨-, hparse⟩
  · simp [hfault] at hsome
  · rw [h] at hparse
    split at hparse
    · simp at hparse
    · exact ⟨_, Except.error.inj hparse⟩

end HackPlatform.Stack
