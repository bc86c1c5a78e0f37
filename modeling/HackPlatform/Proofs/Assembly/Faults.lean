import HackPlatform.Proofs.Assembly.Backpatch
import HackPlatform.Proofs.Stack.Reading

/-!
# What is reported about faulty sources

A line of an assembly program is at fault if it has code that is no statement, or that declares a label which an earlier line declares
(`Faulty`). Reading reports such lines, up to the tenth, and stops there (`linesRead`); `Draft.HasRead` is what is known on the way.
A program with too many instructions is then reported as one more entry, at the last line that was read, and this entry is not
counted. So the list of entries is too long or has two entries for one line exactly if there are too many instructions up to a
last line that is at fault itself (`Overfull`). The reader of stack programs has no such entry, and reports the first ten lines at fault
(`error_lists_bounded_iff`).
-/

namespace HackPlatform.Assembly

open Source (numbers FirstFaults)

/-! ## Lines at fault -/

/-- A line has code, and this is no statement or declares a label that an earlier line declares. -/
def Faulty (before : List Bytes) (line : Bytes) : Prop :=
  Bytes.code line ≠ [] ∧
    ∀ s, Written (Bytes.code line) s → s.isInstruction = false ∧ ∃ other ∈ before, Written (Bytes.code other) s

/-- A line is an instruction. -/
def HoldsInstruction (line : Bytes) : Prop := ∃ s, Written (Bytes.code line) s ∧ s.isInstruction = true

/-- The statement of a line. -/
def statement? (line : Bytes) : Option Statement := (Statement.read (Bytes.code line)).toOption

theorem mem_statement?_iff {line : Bytes} {s : Statement} : s ∈ statement? line ↔ Written (Bytes.code line) s := by
  rw [← Statement.read_eq_ok_iff, statement?, Option.mem_def]
  cases Statement.read (Bytes.code line) <;> simp [Except.toOption]

instance (before : List Bytes) (line : Bytes) : Decidable (Faulty before line) :=
  decidable_of_iff (Bytes.code line ≠ [] ∧
      ∀ s ∈ statement? line, s.isInstruction = false ∧ ∃ other ∈ before, s ∈ statement? other) (by
    simp only [mem_statement?_iff, Faulty])

instance (line : Bytes) : Decidable (HoldsInstruction line) :=
  decidable_of_iff (∃ s ∈ statement? line, s.isInstruction = true) (by simp only [mem_statement?_iff, HoldsInstruction])

/-- The number of lines that are read: all of them, or those up to the tenth at fault. -/
def linesRead (lines : List Bytes) : Nat := ((numbers Faulty lines)[maxErrors - 1]?).getD lines.length

/-- The number of instructions on some lines. -/
def instructions (lines : List Bytes) : Nat := lines.countP (HoldsInstruction ·)

/-- There are too many instructions on the lines that are read, and the last of these lines is at fault. -/
def Overfull (lines : List Bytes) : Prop :=
  Image.maxInstructions < instructions (lines.take (linesRead lines)) ∧ linesRead lines ∈ numbers Faulty lines

/-- The lines of the entries: those at fault, up to the tenth, and the last line that is read if there are too many instructions. -/
def reportedLines (lines : List Bytes) : List Int :=
  ((numbers Faulty lines).take maxErrors).map Nat.cast ++
    if Image.maxInstructions < instructions (lines.take (linesRead lines)) then [(linesRead lines : Int)] else []

/-- The last line that is read is the tenth at fault, or it is the last one of all and there are fewer than ten lines at fault. -/
theorem linesRead_cases (lines : List Bytes) : linesRead lines ∈ (numbers Faulty lines).take maxErrors ∨
    linesRead lines = lines.length ∧ (numbers Faulty lines).length < maxErrors := by
  unfold linesRead
  cases hget : (numbers Faulty lines)[maxErrors - 1]? with
  | some number =>
    have htake : ((numbers Faulty lines).take maxErrors)[maxErrors - 1]? = some number := by
      rw [List.getElem?_take_of_lt (by decide), hget]
    exact .inl (List.mem_of_getElem? htake)
  | none =>
    rw [List.getElem?_eq_none_iff] at hget
    exact .inr ⟨rfl, by unfold maxErrors at *; omega⟩

section Statements

variable {line : Bytes} {s : Statement}

theorem written_iff_of_read (h : Statement.read (Bytes.code line) = .ok s) (t : Statement) : Written (Bytes.code line) t ↔ t = s := by
  rw [← Statement.read_eq_ok_iff, h, Except.ok.injEq, eq_comm]

theorem not_written_of_read {cause : Cause} (h : Statement.read (Bytes.code line) = .error cause) (t : Statement) :
    ¬Written (Bytes.code line) t := by
  rw [← Statement.read_eq_ok_iff, h]
  simp

theorem not_written_of_blank (h : Bytes.code line = []) (t : Statement) : ¬Written (Bytes.code line) t := by
  obtain ⟨cause, hcause⟩ : ∃ cause, Statement.read [] = .error cause := ⟨_, rfl⟩
  exact not_written_of_read (by rw [h, hcause]) t

end Statements

/-! ## Reading -/

namespace Draft

/-- What a draft knows after some lines. -/
structure HasRead (lines : List Bytes) (d : Draft) : Prop where
  errors : d.errors.reverse.map (·.pos.line) = (numbers Faulty lines).map Nat.cast
  labels : ∀ name, d.address name ≠ unplaced ↔ ∃ line ∈ lines, Written (Bytes.code line) (.label name)
  size : d.rom.size = instructions lines
  line : d.pos.line = lines.length

theorem add_of_isInstruction (d : Draft) {s : Statement} (h : s.isInstruction = true) :
    (d.add s).pos = d.pos ∧ (d.add s).errors = d.errors ∧ (d.add s).rom.size = d.rom.size + 1 ∧
      ∀ name, (d.add s).address name = d.address name := by
  have hpush : ∀ i, (d.push i).pos = d.pos ∧ (d.push i).errors = d.errors ∧ (d.push i).rom.size = d.rom.size + 1 ∧
      ∀ name, (d.push i).address name = d.address name := fun i => ⟨rfl, rfl, Array.size_push _, fun _ => rfl⟩
  cases s with
  | label name => exact Bool.noConfusion h
  | load operand =>
    cases operand with
    | number n => exact hpush _
    | symbol name =>
      cases hpre : predefined? name with
      | some value => simpa only [Draft.add, hpre] using hpush _
      | none =>
        obtain ⟨symbol, haddress, -, heq⟩ := d.use_eq name
        obtain ⟨hrom, herrors, hpos⟩ := d.snd_lookup name
        simp only [Draft.add, hpre, heq]
        refine ⟨hpos, herrors, ?_, fun other => ?_⟩
        · rw [← hrom]
          exact Array.size_push _
        · refine (d.address_put_lookup name symbol other).trans ?_
          rw [haddress]
          split <;> simp [*]
  | compute dest comp jump => exact hpush _

variable {lines : List Bytes} {d d' : Draft}

theorem HasRead.concat (h : d.HasRead lines) {line : Bytes} (hline : d'.pos.line = d.pos.line + 1)
    (herrors : d'.errors.map (·.pos.line) = (if Faulty lines line then [d'.pos.line] else []) ++ d.errors.map (·.pos.line))
    (hlabels : ∀ name, d'.address name ≠ unplaced ↔ d.address name ≠ unplaced ∨ Written (Bytes.code line) (.label name))
    (hsize : d'.rom.size = d.rom.size + if HoldsInstruction line then 1 else 0) : d'.HasRead (lines ++ [line]) := by
  have hnumber : d'.pos.line = (lines.length + 1 : Nat) := by rw [hline, h.line]; rfl
  refine ⟨?_, ?_, ?_, ?_⟩
  · have hbefore := h.errors
    rw [List.map_reverse] at hbefore ⊢
    rw [herrors, List.reverse_append, hbefore, Source.numbers_concat, List.map_append]
    split <;> simp [hnumber]
  · intro name
    rw [hlabels, h.labels]
    simp [or_and_right, exists_or]
  · rw [hsize, h.size, instructions, instructions, List.countP_append, List.countP_singleton]
    simp only [decide_eq_true_eq]
  · rw [hnumber, List.length_append, List.length_singleton]

theorem HasRead.addInstruction (h : d.HasRead lines) {line : Bytes} {s : Statement}
    (hread : Statement.read (Bytes.code line) = .ok s) (hs : s.isInstruction = true) (column : Nat) :
    (((d.enterLine column).add s).leaveLine line.length).HasRead (lines ++ [line]) := by
  obtain ⟨hpos, herrors, hsize, haddress⟩ := (d.enterLine column).add_of_isInstruction hs
  have hwritten := written_iff_of_read hread
  refine h.concat ?_ ?_ ?_ ?_
  · exact congrArg Position.line hpos
  · rw [if_neg fun hfaulty => by simpa [hs] using (hfaulty.2 s ((hwritten s).mpr rfl)).1]
    exact congrArg (List.map _) herrors
  · refine fun name => Iff.trans (not_congr (Eq.congr_left (haddress name))) (or_iff_left fun hlabel => ?_).symm
    rw [← (hwritten _).mp hlabel] at hs
    exact Bool.noConfusion hs
  · rw [if_pos ⟨s, (hwritten s).mpr rfl, hs⟩]
    exact hsize

theorem not_holdsInstruction_of_label {line name : Bytes} (hread : Statement.read (Bytes.code line) = .ok (.label name)) :
    ¬HoldsInstruction line := by
  rintro ⟨s, hs, htrue⟩
  obtain rfl := (written_iff_of_read hread s).mp hs
  exact Bool.noConfusion htrue

theorem HasRead.faulty_label_iff (h : d.HasRead lines) {line name : Bytes}
    (hread : Statement.read (Bytes.code line) = .ok (.label name)) (hcode : Bytes.code line ≠ []) :
    Faulty lines line ↔ d.address name ≠ unplaced := by
  have hwritten := written_iff_of_read hread
  rw [h.labels]
  refine ⟨fun hfaulty => (hfaulty.2 _ ((hwritten _).mpr rfl)).2, fun hother => ⟨hcode, fun s hs => ?_⟩⟩
  obtain rfl := (hwritten s).mp hs
  exact ⟨rfl, hother⟩

theorem HasRead.declare (h : d.HasRead lines) {line name : Bytes} (hread : Statement.read (Bytes.code line) = .ok (.label name))
    (hcode : Bytes.code line ≠ []) (column : Nat) :
    (((d.enterLine column).declare name).leaveLine line.length).HasRead (lines ++ [line]) := by
  have hnoslot := not_holdsInstruction_of_label hread
  have hfaulty := h.faulty_label_iff hread hcode
  have hnames : ∀ other, Written (Bytes.code line) (.label other) ↔ other = name := by
    intro other
    rw [written_iff_of_read hread, Statement.label.injEq]
  by_cases hknown : d.address name = unplaced
  · obtain ⟨symbol, haddress, -, heq⟩ := declare_of_unplaced (d := d.enterLine column) hknown
    obtain ⟨hrom, herrors, hpos⟩ := (d.enterLine column).snd_lookup name
    rw [heq]
    refine h.concat ?_ ?_ (fun other => ?_) ?_
    · exact congrArg Position.line hpos
    · rw [if_neg fun hfault => hfaulty.mp hfault hknown]
      exact congrArg (List.map _) herrors
    · rw [hnames]
      refine (not_congr (Eq.congr_left ((d.enterLine column).address_put_lookup name symbol other))).trans ?_
      by_cases hother : name = other
      · subst hother
        simp [haddress, unplaced]
      · rw [if_neg hother]
        exact (or_iff_left (Ne.symm hother)).symm
    · rw [if_neg hnoslot]
      exact congrArg Array.size hrom
  · obtain ⟨previous, heq⟩ := declare_of_placed (d := d.enterLine column) hknown
    rw [heq]
    refine h.concat rfl ?_ (fun other => ?_) ?_
    · rw [if_pos (hfaulty.mpr hknown)]
      rfl
    · rw [hnames]
      refine (or_iff_left_of_imp ?_).symm
      rintro rfl
      exact hknown
    · rw [if_neg hnoslot]
      rfl

theorem HasRead.readLine (h : d.HasRead lines) (line : Bytes) : (d.readLine line).HasRead (lines ++ [line]) := by
  by_cases hblank : Bytes.code line = []
  · have hnone := not_written_of_blank hblank
    rw [d.readLine_of_blank hblank]
    refine h.concat rfl ?_ (fun name => (or_iff_left (hnone _)).symm) ?_
    · rw [if_neg fun hfaulty => hfaulty.1 hblank]
      rfl
    · rw [if_neg fun ⟨s, hs, _⟩ => hnone s hs]
      rfl
  · obtain ⟨column, heq⟩ := d.readLine_of_code hblank
    rw [heq]
    cases hread : Statement.read (Bytes.code line) with
    | error cause =>
      have hnone := not_written_of_read hread
      refine h.concat rfl ?_ (fun name => (or_iff_left (hnone _)).symm) ?_
      · rw [if_pos ⟨hblank, fun s hs => absurd hs (hnone s)⟩]
        rfl
      · rw [if_neg fun ⟨s, hs, _⟩ => hnone s hs]
        rfl
    | ok s =>
      cases s with
      | label name => exact h.declare hread hblank column
      | load operand | compute dest comp jump => exact h.addInstruction hread rfl column

theorem HasRead.readLines (h : d.HasRead lines) (others : List Bytes) :
    (others.foldl Draft.readLine d).HasRead (lines ++ others) := by
  induction others generalizing d lines with
  | nil => simpa using h
  | cons line others ih => simpa using ih (h.readLine line)

theorem HasRead.length_errors (h : d.HasRead lines) : d.errors.length = (numbers Faulty lines).length := by
  simpa using congrArg List.length h.errors

theorem HasRead.map_line_entries (h : d.HasRead lines) :
    d.entries.map (·.pos.line) = (numbers Faulty lines).map Nat.cast ++
      if Image.maxInstructions < instructions lines then [(lines.length : Int)] else [] := by
  rw [← h.errors, ← h.size, ← h.line]
  simp only [Draft.entries]
  split <;> simp [fail]

end Draft

/-- A program is accepted if there is nothing to report, and else it is refused with entries for the reported lines. -/
theorem assemble_cases (name : Bytes) {source : Source} (hfault : source.fault = none) :
    ∃ words entries, entries.map (·.pos.line) = reportedLines source.lines ∧
      assemble name source = if entries = [] then .ok words else .error (.rejected entries) := by
  obtain ⟨n, hn, hfeed, hbefore, hend⟩ := source.feed_eq Draft.isFull Draft.readLine { pos := { file := name } }
  have hstart : Draft.HasRead [] { pos := { file := name } } := ⟨rfl, by simp [Draft.address], rfl, rfl⟩
  have hread := fun m => hstart.readLines (source.lines.take m)
  simp only [List.nil_append] at hread
  have hfull : ∀ m, ((source.lines.take m).foldl Draft.readLine { pos := { file := name } }).isFull = true ↔
      maxErrors ≤ (numbers Faulty (source.lines.take m)).length := by
    intro m
    rw [← (hread m).length_errors, Draft.isFull, decide_eq_true_eq]
  have hroom : ∀ m < n, (numbers Faulty (source.lines.take m)).length < maxErrors := by
    intro m hm
    rw [← Nat.not_le, ← hfull, hbefore m hm]
    simp
  obtain ⟨hnumbers, hlast⟩ := Source.numbers_take_of_stop (by decide) hn hroom fun hlt => (hfull n).mp (hend hlt)
  obtain rfl : n = linesRead source.lines := hlast
  have hlines := (hread (linesRead source.lines)).map_line_entries
  rw [hnumbers, List.length_take_of_le hn] at hlines
  generalize (source.lines.take (linesRead source.lines)).foldl Draft.readLine { pos := { file := name } } = d at hfeed hlines
  refine ⟨d.words, d.entries, hlines, ?_⟩
  unfold assemble
  rw [hfeed, hfault, ite_self]
  dsimp only
  split
  · rename_i hnone
    rw [if_pos hnone]
  · rename_i hsome
    rw [if_neg hsome]

theorem exists_entries_of_reportedLines (name : Bytes) {source : Source} (hfault : source.fault = none)
    (hsome : reportedLines source.lines ≠ []) : ∃ entries, assemble name source = .error (.rejected entries) ∧
      entries.map (·.pos.line) = reportedLines source.lines := by
  obtain ⟨words, entries, hlines, hresult⟩ := assemble_cases name hfault
  refine ⟨entries, ?_, hlines⟩
  rw [hresult, if_neg]
  rintro rfl
  exact hsome hlines.symm

/-- The reported lines are the first faults unless the last line is reported twice. -/
theorem firstFaults_reportedLines_iff {lines : List Bytes} (hsome : reportedLines lines ≠ []) :
    FirstFaults (numbers Faulty lines) (reportedLines lines) ↔ ¬Overfull lines := by
  unfold reportedLines Overfull at *
  split at hsome
  · rename_i hlarge
    rw [if_pos hlarge, and_iff_right hlarge]
    constructor
    · intro hfirst hmem
      have hlast : linesRead lines ∈ (numbers Faulty lines).take maxErrors := by
        refine (linesRead_cases lines).elim id fun hfew => ?_
        rwa [List.take_of_length_le (by omega)]
      have hlt := (List.pairwise_append.mp hfirst.increasing).2.2 _ (List.mem_map_of_mem hlast) _ (List.mem_singleton.mpr rfl)
      exact absurd hlt (Int.lt_irrefl _)
    · intro hmem
      obtain ⟨hall, hfew⟩ := (linesRead_cases lines).resolve_left fun htake => hmem (List.mem_of_mem_take htake)
      have hbefore : ∀ fault ∈ numbers Faulty lines, fault < linesRead lines := by
        intro fault hfault
        have hne : fault ≠ linesRead lines := fun heq => hmem (heq ▸ hfault)
        have hlength := Source.le_length_of_mem_numbers Faulty hfault
        omega
      rw [List.take_of_length_le (by omega)]
      refine ⟨by simp, ?_, List.pairwise_append.mpr ⟨Source.pairwise_cast (Source.pairwise_numbers Faulty lines),
        List.pairwise_singleton _ _, ?_⟩, ?_⟩
      · rw [List.length_append, List.length_map, List.length_singleton]
        exact hfew
      · intro first hfirst last hlast
        obtain ⟨fault, hfault, rfl⟩ := List.mem_map.mp hfirst
        obtain rfl := List.mem_singleton.mp hlast
        exact Int.ofNat_lt.mpr (hbefore fault hfault)
      · intro fault hfault line _ _
        exact List.mem_append_left _ (List.mem_map_of_mem hfault)
  · rename_i hfits
    rw [List.append_nil] at hsome
    have hfaults : numbers Faulty lines ≠ [] := by
      rintro hnone
      simp [hnone] at hsome
    rw [if_neg hfits, List.append_nil]
    exact iff_of_true (Source.firstFaults_of_take (Source.pairwise_numbers _ _) hfaults) fun hover => hfits hover.1

/-! ## Texts -/

theorem code_dropReturn (line : Bytes) : Bytes.code (Source.dropReturn line) = Bytes.code line :=
  Bytes.apply_dropReturn Bytes.code_append_return line

theorem numbers_faulty_map_dropReturn (lines : List Bytes) :
    numbers Faulty (lines.map Source.dropReturn) = numbers Faulty lines := by
  refine Source.numbers_map_dropReturn (fun before line => ?_) lines
  simp [Faulty, code_dropReturn]

theorem instructions_map_dropReturn (lines : List Bytes) : instructions (lines.map Source.dropReturn) = instructions lines := by
  have hline : ∀ line, HoldsInstruction (Source.dropReturn line) ↔ HoldsInstruction line := by
    intro line
    rw [HoldsInstruction, HoldsInstruction, code_dropReturn]
  unfold instructions
  rw [List.countP_map]
  congr 1
  exact funext fun line => decide_eq_decide.mpr (hline line)

theorem linesRead_map_dropReturn (lines : List Bytes) : linesRead (lines.map Source.dropReturn) = linesRead lines := by
  rw [linesRead, linesRead, numbers_faulty_map_dropReturn, List.length_map]

theorem reportedLines_map_dropReturn (lines : List Bytes) : reportedLines (lines.map Source.dropReturn) = reportedLines lines := by
  rw [reportedLines, reportedLines, numbers_faulty_map_dropReturn, linesRead_map_dropReturn, ← List.map_take,
    instructions_map_dropReturn]

/-- A stack program that is refused is reported with its first lines at fault. So is an assembly program, unless there are too many
instructions up to a last line that is at fault itself. -/
theorem error_lists_bounded_iff (name : Bytes) {text : Bytes} (h : ∀ line ∈ Source.rawLines text, line.length ≤ Source.lineLimit) :
    (∀ e, Stack.parse name (Source.ofBytes text) = .error e → ∃ entries, e = .rejected entries ∧
        entries.map (·.pos.line) = ((numbers (fun _ => Stack.Faulty) (Source.rawLines text)).take 10).map Nat.cast ∧
        FirstFaults (numbers (fun _ => Stack.Faulty) (Source.rawLines text)) (entries.map (·.pos.line))) ∧
      ∀ e, assemble name (Source.ofBytes text) = .error e → ∃ entries, e = .rejected entries ∧
        entries.map (·.pos.line) = reportedLines (Source.rawLines text) ∧
        (FirstFaults (numbers Faulty (Source.rawLines text)) (entries.map (·.pos.line)) ↔ ¬Overfull (Source.rawLines text)) := by
  obtain ⟨hlines, hfault⟩ := Bytes.lines_ofBytes h
  constructor
  · intro e hparse
    obtain ⟨entries, rfl⟩ := Stack.exists_entries_of_parse hfault hparse
    obtain ⟨hsome, hentries⟩ := Stack.entries_of_parse hparse
    have hfaulty : ∀ line, Stack.Faulty (Source.dropReturn line) ↔ Stack.Faulty line := by
      intro line
      rw [Stack.Faulty, Stack.Faulty, Bytes.apply_dropReturn Bytes.lineWords_append_return]
    have hreported : entries.map (·.pos.line) =
        ((numbers (fun _ => Stack.Faulty) (Source.rawLines text)).take 10).map Nat.cast := by
      rw [← Source.numbers_map_dropReturn fun _ => hfaulty, ← hlines, hentries, List.map_take, Source.map_line_located, List.map_take]
      simp only [← Stack.faulty_iff]
      rfl
    refine ⟨entries, rfl, hreported, ?_⟩
    rw [hreported]
    refine Source.firstFaults_of_take (Source.pairwise_numbers _ _) fun hnone => hsome ?_
    simpa [hnone] using hreported
  · intro e hassemble
    obtain ⟨words, entries, hreported, hresult⟩ := assemble_cases name hfault
    rw [hlines, reportedLines_map_dropReturn] at hreported
    rw [hassemble] at hresult
    split at hresult
    · simp at hresult
    · rename_i hsome
      refine ⟨entries, Except.error.inj hresult, hreported, ?_⟩
      rw [hreported, firstFaults_reportedLines_iff]
      rw [← hreported]
      simpa using hsome

theorem error_lists_bounded_iff_both :
    let text := ascii "x\n(L)\n\n(L)\r\n0"
    (∀ line ∈ Source.rawLines text, line.length ≤ Source.lineLimit) ∧
      (∃ entries, Stack.parse [] (Source.ofBytes text) = .error (.rejected entries) ∧
        entries.map (·.pos.line) = [1, 2, 4, 5] ∧ FirstFaults [1, 2, 4, 5] (entries.map (·.pos.line))) ∧
      ∃ entries, assemble [] (Source.ofBytes text) = .error (.rejected entries) ∧
        entries.map (·.pos.line) = [1, 4] ∧ FirstFaults [1, 4] (entries.map (·.pos.line)) := by
  intro text
  have hlines : ∀ line ∈ Source.rawLines text, line.length ≤ Source.lineLimit := by decide +kernel
  obtain ⟨hstack, hassembly⟩ := error_lists_bounded_iff [] hlines
  refine ⟨hlines, ?_, ?_⟩
  · have hnumbers : numbers (fun _ => Stack.Faulty) (Source.rawLines text) = [1, 2, 4, 5] := by decide +kernel
    have hrefused : (Stack.parse [] (Source.ofBytes text)).toOption = none := by decide +kernel
    cases he : Stack.parse [] (Source.ofBytes text) with
    | ok commands => simp [he, Except.toOption] at hrefused
    | error e =>
      obtain ⟨entries, rfl, hreported, hfirst⟩ := hstack e he
      rw [hnumbers] at hreported hfirst
      exact ⟨entries, rfl, hreported, hfirst⟩
  · have hreportedLines : reportedLines (Source.rawLines text) = [1, 4] := by decide +kernel
    have hnumbers : numbers Faulty (Source.rawLines text) = [1, 4] := by decide +kernel
    obtain ⟨hraw, hfault⟩ := Bytes.lines_ofBytes hlines
    obtain ⟨entries, he, -⟩ := exists_entries_of_reportedLines [] hfault (by
      rw [hraw, reportedLines_map_dropReturn, hreportedLines]
      decide)
    obtain ⟨others, heq, hreported, hiff⟩ := hassembly _ he
    obtain rfl := Error.rejected.inj heq
    rw [hnumbers] at hiff
    exact ⟨entries, he, by rw [hreported, hreportedLines], hiff.mpr (by unfold Overfull; decide +kernel)⟩

theorem not_faulty_of_holdsInstruction {line : Bytes} (h : HoldsInstruction line) (before : List Bytes) : ¬Faulty before line := by
  obtain ⟨s, hs, hinstruction⟩ := h
  intro hfaulty
  simpa [hinstruction] using (hfaulty.2 s hs).1

theorem length_reportedLines (good bad : List Bytes) (hgood : ∀ line ∈ good, HoldsInstruction line)
    (hmany : Image.maxInstructions < good.length) (hbad : ∀ line ∈ bad, ∀ before, Faulty before line) (hten : maxErrors ≤ bad.length) :
    (reportedLines (good ++ bad)).length = maxErrors + 1 := by
  have hnumbers : numbers Faulty (good ++ bad) = Source.numbersFrom Faulty good bad := by
    rw [numbers, Source.numbersFrom_append,
      Source.numbersFrom_of_forall_not Faulty fun line hmem => not_faulty_of_holdsInstruction (hgood line hmem)]
    rfl
  have hcount : (numbers Faulty (good ++ bad)).length = bad.length := by
    rw [hnumbers, Source.length_numbersFrom_of_forall Faulty hbad]
  -- the reader stops at a line at fault, which comes behind all instructions
  have hstop : linesRead (good ++ bad) ∈ numbers Faulty (good ++ bad) :=
    List.mem_of_mem_take ((linesRead_cases _).resolve_right fun hfew => by omega)
  have hlarge : Image.maxInstructions < instructions ((good ++ bad).take (linesRead (good ++ bad))) := by
    rw [hnumbers] at hstop
    obtain ⟨front, -, -, -, -, hnumber⟩ := (Source.mem_numbersFrom Faulty).mp hstop
    have hall : good.countP (HoldsInstruction ·) = good.length := List.countP_eq_length.mpr (by simpa using hgood)
    rw [hnumber, List.length_append, Nat.add_assoc, List.take_length_add_append, instructions, List.countP_append, hall]
    omega
  rw [reportedLines, if_pos hlarge, List.length_append, List.length_map, List.length_take, hcount, Nat.min_eq_left hten,
    List.length_singleton]

theorem eleven_entries :
    let text := (List.replicate 32769 (ascii "0\n")).flatten ++ (List.replicate 10 (ascii "x\n")).flatten
    ∃ entries, assemble [] (Source.ofBytes text) = .error (.rejected entries) ∧ entries.length = 11 := by
  intro text
  have htext : text = (List.replicate 32769 (ascii "0") ++ List.replicate 10 (ascii "x")).flatMap (· ++ [10]) := by
    rw [List.flatMap_append, List.flatMap_replicate, List.flatMap_replicate]
    rfl
  have hline : ∀ line ∈ List.replicate 32769 (ascii "0") ++ List.replicate 10 (ascii "x"),
      10 ∉ line ∧ line.length ≤ Source.lineLimit := by
    intro line hmem
    rcases List.mem_append.mp hmem with hmem | hmem <;> rw [List.eq_of_mem_replicate hmem] <;> decide
  have hraw : Source.rawLines text = List.replicate 32769 (ascii "0") ++ List.replicate 10 (ascii "x") := by
    rw [htext, Bytes.rawLines_flatMap_lines fun line hmem => (hline line hmem).1]
  have hlimit : ∀ line ∈ Source.rawLines text, line.length ≤ Source.lineLimit := fun line hmem => (hline line (hraw ▸ hmem)).2
  obtain ⟨hlines, hfault⟩ := Bytes.lines_ofBytes hlimit
  have hzero : HoldsInstruction (ascii "0") := by decide +kernel
  have hfaulty : ∀ before, Faulty before (ascii "x") := by
    have hcause : Statement.read (Bytes.code (ascii "x")) = .error (.invalidComputation (ascii "x")) := by decide +kernel
    exact fun before => ⟨by decide +kernel, fun s hs => absurd hs (not_written_of_read hcause s)⟩
  have hlength := length_reportedLines (List.replicate 32769 (ascii "0")) (List.replicate 10 (ascii "x"))
    (fun line hmem => List.eq_of_mem_replicate hmem ▸ hzero) (by rw [List.length_replicate]; decide)
    (fun line hmem => List.eq_of_mem_replicate hmem ▸ hfaulty) (by rw [List.length_replicate]; decide)
  rw [← hraw, ← reportedLines_map_dropReturn, ← hlines] at hlength
  obtain ⟨entries, he, hentries⟩ := exists_entries_of_reportedLines [] hfault fun hnone => by simp [hnone, maxErrors] at hlength
  refine ⟨entries, he, ?_⟩
  rw [← List.length_map, hentries, hlength]
  rfl

end HackPlatform.Assembly
