import HackPlatform.Proofs.Code.Unique

/-!
# Generated code can be assembled

Names of the program are identifiers, and what the writer adds to them keeps them symbols (`Label.isSymbol_symbol`); the
numbers of blocks fit a load instruction if those of the commands do. So every statement of generated code is read back from
its line (`readable_code`), and the assembler accepts the text if it is short enough and no label is declared twice.
-/

namespace HackPlatform.Code

open Assembly (Statement Comp labelNames)
open Stack (Command Op Segment)

/-! ## Names -/

theorem isSymbol_append {x y : Bytes} (hx : isSymbol x = true) (hy : y.all isSymbolByte = true) :
    isSymbol (x ++ y) = true := by
  cases x with
  | nil => exact Bool.noConfusion hx
  | cons b rest =>
    simp only [isSymbol, isWordOf, List.cons_append, Bool.and_eq_true, List.all_append] at hx ⊢
    exact ⟨hx.1, hx.2, hy⟩

theorem isSymbol_of_isIdentifier {name : Bytes} (h : isIdentifier name = true) : isSymbol name = true := by
  cases name with
  | nil => exact Bool.noConfusion h
  | cons b rest =>
    simp only [isIdentifier, isSymbol, isWordOf, Bool.and_eq_true, List.all_eq_true] at h ⊢
    exact ⟨⟨h.1.1, by simp [isSymbolByte, h.1.2]⟩, fun c hc => by simp [isSymbolByte, h.2 c hc]⟩

theorem all_of_isSymbol {name : Bytes} (h : isSymbol name = true) : name.all isSymbolByte = true := by
  cases name with
  | nil => rfl
  | cons b rest =>
    simp only [isSymbol, isWordOf, Bool.and_eq_true] at h
    rw [List.all_cons, h.1.2, h.2]
    rfl

theorem all_ofNat (n : Nat) : (Numeral.ofNat n).all isSymbolByte = true := by
  rw [List.all_eq_true]
  intro b hb
  simp [isSymbolByte, isNameByte, Numeral.isDigit_of_mem_ofNat n b hb]

theorem Label.isSymbol_symbol {F : Bytes → Prop} (hF : ∀ file, F file → isSymbol file = true) {l : Label} (hl : l.Valid F) :
    isSymbol l.symbol = true := by
  have hall : ∀ {name : Bytes}, isIdentifier name = true → name.all isSymbolByte = true :=
    fun h => all_of_isSymbol (isSymbol_of_isIdentifier h)
  cases l with
  | entry function => exact isSymbol_of_isIdentifier hl
  | inFunction function name =>
    rw [symbol, List.append_assoc]
    exact isSymbol_append (isSymbol_of_isIdentifier hl.1) (by simpa [isSymbolByte] using hall hl.2)
  | back caller n =>
    rw [symbol, List.append_assoc]
    refine isSymbol_append (isSymbol_of_isIdentifier hl) ?_
    rw [List.all_append, all_ofNat]
    rfl
  | inFile file name =>
    rw [symbol, List.append_assoc, List.append_assoc]
    refine isSymbol_append (by decide) ?_
    rw [List.all_append, List.all_append, all_of_isSymbol (hF _ hl.1), hall hl.2]
    rfl
  | compare order role n =>
    have hword : (ascii (comparison order).word).all isSymbolByte = true := by cases order <;> decide
    have hroles : ∀ role ∈ roles, (ascii role).all isSymbolByte = true := by decide
    simp only [symbol, Comparison.label, List.append_assoc]
    refine isSymbol_append (by decide) ?_
    rw [List.all_append, List.all_append, List.all_append, hword, hroles role hl, all_ofNat]
    rfl

theorem isSymbol_static {file : Bytes} (h : isSymbol file = true) (index : Nat) :
    isSymbol (file ++ [46] ++ Numeral.ofNat index) = true := by
  rw [List.append_assoc]
  refine isSymbol_append h ?_
  rw [List.all_append, all_ofNat]
  rfl

theorem isIdentifier_of_predefined {name : Bytes} (h : (Assembly.predefined? name).isSome = true) :
    isIdentifier name = true := by
  obtain ⟨entry, hmem, hname⟩ := List.lookup_isSome_iff.mp h
  have hall : Assembly.predefined.all (fun p => isIdentifier p.1) = true := by decide
  rw [eq_of_beq hname]
  exact List.all_eq_true.mp hall entry hmem

/-- Only the entry of a function can have the name of a predefined symbol, since these hold no dollar sign. -/
theorem predefined?_symbol {F : Bytes → Prop} (hF : ∀ file, F file → 36 ∉ file) {l : Label} (hl : l.Valid F)
    (hentry : ∀ function, l = .entry function → Assembly.predefined? function = none) :
    Assembly.predefined? l.symbol = none := by
  cases hpre : Assembly.predefined? l.symbol with
  | none => rfl
  | some value =>
    have hdollar : 36 ∉ l.symbol := not_dollar_of_isIdentifier (isIdentifier_of_predefined (by rw [hpre]; rfl))
    rw [← hentry l.symbol (Label.eq_entry_of_not_dollar hF hl hdollar), hpre]

/-! ## Statements -/

/-- The function that a command declares, if it does, is not named like a predefined symbol. -/
def DeclaresFree : Command → Prop
  | .function name _ => Assembly.predefined? name = none
  | _ => True

instance : DecidablePred DeclaresFree
  | .function name _ => inferInstanceAs (Decidable (Assembly.predefined? name = none))
  | .arithmetic _ | .push _ _ | .pop _ _ | .label _ | .goto _ | .ifGoto _ | .call _ _ | .return | .unknown _ =>
    isTrue trivial

theorem eq_function_of_mem {s : Scope} {c : Command} {name : Bytes} (h : .entry name ∈ declaredBy s c ++ addedTo s c) :
    ∃ locals, c = .function name locals := by
  cases c with
  | function other locals =>
    obtain rfl : name = other := by simpa [declaredBy, addedTo] using h
    exact ⟨locals, rfl⟩
  | label other => cases hs : s.function <;> simp [declaredBy, addedTo, Scope.labelOf, hs] at h
  | arithmetic op => cases op <;> simp [declaredBy, addedTo] at h
  | _ => simp [declaredBy, addedTo, Scope.backOf] at h

/-- Every statement of generated code is read back from its line, if the numbers of commands fit and no function has the name of
a predefined symbol. -/
theorem readable_code {ops : List Operation} (h : Lowerable {} ops)
    (hfiles : ∀ name, .file name ∈ ops → isIdentifier name = true)
    (hfits : ∀ op ∈ ops, ∀ c ∈ op.command?, Fits c) (hfunctions : ∀ op ∈ ops, ∀ c ∈ op.command?, DeclaresFree c) :
    ∀ st ∈ code {} ops, st.Readable := by
  intro st hst
  obtain ⟨x, hx, c, hc, hvalid, hlabels, hpart⟩ := parts_code (valid_empty _) h hfiles st hst
  have hop := mem_of_mem_trace hx
  cases hpart with
  | compute dest comp jump => trivial
  | register predefined => exact Statement.isSymbol_of_predefined predefined
  | target valid => exact Label.isSymbol_symbol (fun _ => isSymbol_of_isIdentifier) valid
  | @label l member =>
    refine ⟨Label.isSymbol_symbol (fun _ => isSymbol_of_isIdentifier) (hlabels l member), ?_⟩
    refine predefined?_symbol (fun file hfile => not_dollar_of_isIdentifier hfile) (hlabels l member) ?_
    rintro function rfl
    obtain ⟨locals, rfl⟩ := eq_function_of_mem member
    exact hfunctions x.2 hop _ hc
  | static index valid => exact isSymbol_static (isSymbol_of_isIdentifier valid) index
  | number range => exact range (hfits x.2 hop c hc)

/-! ## Lines of text -/

/-- The lines of a text that hold an instruction. -/
def instructionLines (text : Bytes) : List Bytes :=
  (text.splitOn 10).filter fun line => !line.isEmpty && line.head? != some 40

theorem length_instructionLines {block : Block} (h : ∀ st ∈ block, 10 ∉ st.text) :
    (instructionLines block.text).length = Assembly.size block := by
  have hfree : ∀ line ∈ block.map Statement.text, 10 ∉ line := by simpa using h
  rw [instructionLines, Block.text_eq_flatMap, Bytes.splitOn_flatMap_lines hfree]
  clear h hfree
  induction block with
  | nil => rfl
  | cons st rest ih =>
    have hne : st.text.isEmpty = false := by simpa using st.text_ne_nil
    have hfirst : (st.text.head? != some 40) = st.isInstruction := by
      rw [bne, head?_text_eq]
      cases st <;> rfl
    rw [List.map_cons, List.cons_append, List.filter_cons, hne, hfirst]
    cases hst : st.isInstruction with
    | true => simpa [Assembly.size, hst] using ih
    | false => simpa [Assembly.size, hst] using ih

theorem not_newline_of_readable {st : Statement} (h : st.Readable) : 10 ∉ st.text := by
  intro hmem
  have hplain := List.all_eq_true.mp (Statement.all_isPlain_text h.wellNamed) 10 hmem
  exact absurd hplain (by decide)

theorem assemble_text {block : Block} (name : Bytes) (hreadable : ∀ st ∈ block, st.Readable)
    (hnodup : (labelNames block).Nodup) (hsize : Assembly.size block ≤ Image.maxInstructions)
    (hlines : ∀ line ∈ block.text.splitOn 10, line.length ≤ Source.lineLimit) :
    ∃ rom, Assembly.assemble name (Source.ofBytes block.text) = .ok rom ∧ rom.size = Assembly.size block := by
  refine ⟨(Assembly.words (Assembly.symbolValue block) block).toArray, ?_, by simp [Assembly.length_words]⟩
  have hfree : ∀ line ∈ block.map Statement.text, 10 ∉ line := by
    simpa using fun st hst => not_newline_of_readable (hreadable st hst)
  rw [Block.text_eq_flatMap] at hlines ⊢
  rw [Bytes.splitOn_flatMap_lines hfree] at hlines
  exact Assembly.assemble_of_readable name hreadable hnodup hsize fun st hst =>
    hlines _ (List.mem_append_left _ (List.mem_map_of_mem hst))

/-- Generated code can be assembled: what a writer on a sink without a limit has written is accepted if files are identifiers, no
function is declared twice or named like a predefined symbol, no label is declared twice in a scope, the numbers of commands
fit, no line is too long and there are at most 32768 lines that hold an instruction. Each of these lines becomes one
instruction. -/
theorem generated_code_assembles (sink : Stream.Sink) (ops : List Operation) (name : Bytes)
    (hlimit : sink.limit = none) (hempty : sink.contents = [])
    (hfiles : ∀ file, Operation.file file ∈ ops → isIdentifier file = true)
    (hdeclared : (declared {} (accepted (Writer.new sink) ops)).Nodup)
    (hfunctions : ∀ op ∈ accepted (Writer.new sink) ops, ∀ c ∈ op.command?, DeclaresFree c)
    (hfits : ∀ op ∈ accepted (Writer.new sink) ops, ∀ c ∈ op.command?, Fits c)
    (hlines : ∀ line ∈ (run (Writer.new sink) ops).emitted.splitOn 10, line.length ≤ Source.lineLimit)
    (hsize : (instructionLines (run (Writer.new sink) ops).emitted).length ≤ Image.maxInstructions) :
    ∃ rom, Assembly.assemble name (Source.ofBytes (run (Writer.new sink) ops).emitted) = .ok rom ∧
      rom.size = (instructionLines (run (Writer.new sink) ops).emitted).length := by
  have hlowerable : Lowerable {} (accepted (Writer.new sink) ops) := lowerable_accepted (Writer.new sink) ops
  have hsubset := accepted_subset (Writer.new sink) ops
  have hreadable := readable_code hlowerable (fun file h => hfiles file (hsubset h)) hfits hfunctions
  have hnodup := labelNames_nodup (fun file hfile => not_dollar_of_isIdentifier hfile) hlowerable
    (fun file h => hfiles file (hsubset h)) hdeclared
  have hemitted := emitted_of_unlimited hlimit ops
  rw [hempty, List.nil_append] at hemitted
  rw [hemitted] at hlines hsize ⊢
  rw [length_instructionLines fun st hst => not_newline_of_readable (hreadable st hst)] at hsize ⊢
  exact assemble_text name hreadable hnodup hsize hlines

/-- A program with calls, branches, a comparison and a static variable, and an operation that is refused. -/
theorem generated_code_assembles_program :
    let ops : List Operation := [.bootstrap, .file (ascii "Main"), .command (.function (ascii "Sys.init") 1),
      .command (.push .constant 7), .command (.pop .static 3), .command (.label (ascii "LOOP")),
      .command (.push .temp 8), .command (.push .argument 9), .command (.arithmetic .lt),
      .command (.ifGoto (ascii "LOOP")), .command (.pop .constant 0), .command (.call (ascii "Sys.init") 2),
      .command .return]
    (declared {} (accepted (Writer.new {}) ops)).Nodup ∧
      ∃ rom, Assembly.assemble [] (Source.ofBytes (run (Writer.new {}) ops).emitted) = .ok rom ∧
        rom.size = (instructionLines (run (Writer.new {}) ops).emitted).length := by
  intro ops
  have haccepted : accepted (Writer.new {}) ops = unrefused {} ops :=
    accepted_eq_unrefused rfl rfl (Writer.intact_new {}) (by decide)
  have hemitted : (run (Writer.new {}) ops).emitted = (code {} (unrefused {} ops)).text := by
    rw [emitted_of_unlimited rfl, haccepted]
    rfl
  have hdeclared : (declared {} (accepted (Writer.new {}) ops)).Nodup := by
    rw [haccepted]
    decide +kernel
  refine ⟨hdeclared, generated_code_assembles {} ops [] rfl rfl ?_ hdeclared ?_ ?_ ?_ ?_⟩
  · intro file hfile
    obtain rfl : file = ascii "Main" := by simpa [ops] using hfile
    decide
  · rw [haccepted]
    decide +kernel
  · rw [haccepted]
    decide +kernel
  · rw [hemitted]
    decide +kernel
  · rw [hemitted]
    decide +kernel

end HackPlatform.Code
