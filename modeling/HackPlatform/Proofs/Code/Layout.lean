import HackPlatform.Code.Build
import HackPlatform.Proofs.Code.Assembles
import HackPlatform.Proofs.Machine.Installed
import HackPlatform.Proofs.Stack.Semantics

/-!
# Where commands are

What `build` writes is the code of the commands of all files, each in the scope that those before it leave (`build_eq_ok`).
If that code is assembled, the block of every command is installed at the address that `linkage` gives (`Assembled.block`), and
the symbols of labels and functions are worth the addresses of the commands that declare them.
-/

namespace HackPlatform.Code

open Assembly (Statement Installed labelNames size symbolValue words)
open Stack (Command Program)

/-! ## Operations in a row -/

def scopeAfter (s : Scope) (ops : List Operation) : Scope := ops.foldl (fun s op => op.after s) s

theorem trace_append (s : Scope) (xs ys : List Operation) :
    trace s (xs ++ ys) = trace s xs ++ trace (scopeAfter s xs) ys := by
  induction xs generalizing s with
  | nil => rfl
  | cons op rest ih => exact congrArg ((s, op) :: ·) (ih (op.after s))

theorem code_append (s : Scope) (xs ys : List Operation) :
    code s (xs ++ ys) = code s xs ++ code (scopeAfter s xs) ys := by
  rw [code, trace_append, List.flatMap_append]
  rfl

theorem scopeAfter_append (s : Scope) (xs ys : List Operation) :
    scopeAfter s (xs ++ ys) = scopeAfter (scopeAfter s xs) ys := List.foldl_append

theorem lowerable_append (s : Scope) (xs ys : List Operation) :
    Lowerable s (xs ++ ys) ↔ Lowerable s xs ∧ Lowerable (scopeAfter s xs) ys := by
  simp only [Lowerable, trace_append, List.forall_mem_append]

/-! ## Programs -/

/-- The operations that write commands, each in its file. -/
def commandOps (p : Program) : List Operation := p.flatMap fun x => [.file x.1, .command x.2]

/-- The operations that write a program, with the start-up code in front if it is wanted. -/
def operations (bootstrap : Bool) (p : Program) : List Operation :=
  (if bootstrap then [.bootstrap] else []) ++ commandOps p

/-- The commands of a file; none if it is no stack program. -/
def commandsOf (file : Bytes × Bytes) : Program :=
  match Stack.parse file.1 (Source.ofBytes file.2) with
  | .ok commands => commands.map fun c => (unitName file.1, c.item)
  | .error _ => []

def programOf (files : List (Bytes × Bytes)) : Program := files.flatMap commandsOf

theorem commandOps_append (p q : Program) : commandOps (p ++ q) = commandOps p ++ commandOps q := List.flatMap_append

/-- The first command sets the file, so it makes no difference which one was set before. -/
theorem commandOps_file (s : Scope) (name : Bytes) (p : Program) :
    code { s with file := name } (commandOps p) = code s (commandOps p) ∧
      (Lowerable { s with file := name } (commandOps p) ↔ Lowerable s (commandOps p)) ∧
      ∃ file, scopeAfter { s with file := name } (commandOps p) = { scopeAfter s (commandOps p) with file } := by
  cases p with
  | nil => exact ⟨rfl, by simp [commandOps, Lowerable, trace], name, rfl⟩
  | cons x rest =>
    have hfile : ∀ s : Scope, (Operation.file x.1).lower s = .ok ([], { s with file := x.1 }) := fun _ => rfl
    refine ⟨rfl, ?_, (scopeAfter s (commandOps (x :: rest))).file, rfl⟩
    constructor
    · intro h
      exact .cons (hfile s) h.tail
    · intro h
      exact .cons (hfile _) h.tail

theorem Lowers.file_eq {s s' : Scope} {c : Command} {block : Block} (h : Lowers s c block s') : s'.file = s.file := by
  cases h with
  | compare order => cases order <;> rfl
  | _ => rfl

theorem Lowers.function_eq {s s' : Scope} {c : Command} {block : Block} (h : Lowers s c block s') :
    s'.function = c.function?.or s.function := by
  cases h with
  | compare order => cases order <;> rfl
  | _ => rfl

/-! ## What is built -/

/-- The writer `w'` has written the code of operations behind what `w` has written, and none of them was refused. -/
structure Wrote (w w' : Writer) (ops : List Operation) : Prop where
  lowerable : Lowerable w.scope ops
  emitted : w'.emitted = w.emitted ++ (code w.scope ops).text

theorem Wrote.nil (w : Writer) : Wrote w w [] := ⟨by simp [Lowerable, trace], by simp [code, trace, Block.text]⟩

theorem Wrote.trans {w w₁ w' : Writer} {xs ys : List Operation} (h : Wrote w w₁ xs)
    (hrest : Lowerable (scopeAfter w.scope xs) ys)
    (htext : w'.emitted = w₁.emitted ++ (code (scopeAfter w.scope xs) ys).text) : Wrote w w' (xs ++ ys) := by
  refine ⟨(lowerable_append _ _ _).mpr ⟨h.lowerable, hrest⟩, ?_⟩
  rw [htext, h.emitted, code_append, Block.text_append, List.append_assoc]

theorem wrote_write {w w' : Writer} {c : Located Command} (h : w.write c = (w', none)) :
    Wrote w w' [.file w.scope.file, .command c.item] ∧
      w'.scope = scopeAfter w.scope [.file w.scope.file, .command c.item] ∧ w'.scope.file = w.scope.file := by
  have hstep := (Operation.located c).stepped w
  rw [show (Operation.located c).apply w = (w', none) from h] at hstep
  obtain ⟨block, hlower, hemitted⟩ := hstep.done rfl
  have hlower' : (Operation.command c.item).lower w.scope = .ok (block, w'.scope) := hlower
  have hcode : code w.scope [.file w.scope.file, .command c.item] = block := by
    show [] ++ ((Operation.command c.item).block w.scope ++ []) = block
    rw [Operation.block_of_lower hlower', List.nil_append, List.append_nil]
  refine ⟨⟨?_, by rw [hcode]; exact hemitted⟩, (Operation.after_of_lower hlower').symm, (lowers_of_lower hlower).file_eq⟩
  have hfile : (Operation.file w.scope.file).lower w.scope = .ok ([], w.scope) := rfl
  exact .cons hfile (.cons hlower' (Wrote.nil w').lowerable)

theorem wrote_writeAll {w w' : Writer} {n n' : Nat} {commands : List (Located Command)}
    (h : w.writeAll n commands = (w', n', none)) :
    Wrote w w' (commandOps (commands.map fun c => (w.scope.file, c.item))) ∧
      w'.scope = scopeAfter w.scope (commandOps (commands.map fun c => (w.scope.file, c.item))) := by
  induction commands generalizing w n with
  | nil =>
    obtain ⟨rfl, -⟩ := Prod.mk.inj h
    exact ⟨.nil w, rfl⟩
  | cons c rest ih =>
    rw [Writer.writeAll] at h
    cases hwrite : w.write c with
    | mk w₁ answer =>
      rw [hwrite] at h
      cases answer with
      | some e => exact absurd h (by simp)
      | none =>
        -- the file is still set behind the first command
        obtain ⟨hfirst, hscope, hfile⟩ := wrote_write hwrite
        obtain ⟨⟨hrest, htext⟩, hscope'⟩ := ih h
        rw [hfile, hscope] at hrest htext hscope'
        exact ⟨hfirst.trans hrest htext, hscope'⟩

theorem Wrote.file {w w₁ w' : Writer} {unit : Bytes} {n n' : Nat} {commands : List (Located Command)} {program : Program}
    (h : (w.setFile unit).writeAll n commands = (w₁, n', none)) (hrest : Wrote w₁ w' (commandOps program)) :
    Wrote w w' (commandOps (commands.map (fun c => (unit, c.item)) ++ program)) := by
  -- the name of the file is set once, and again by the operations
  obtain ⟨⟨hlowerable, hemitted⟩, hscope⟩ := wrote_writeAll h
  obtain ⟨hrest, htext⟩ := hrest
  have hunit : (w.setFile unit).scope = { w.scope with file := unit } := rfl
  rw [hunit] at hlowerable hemitted hscope
  obtain ⟨hcode, hlow, other, hafter⟩ := commandOps_file w.scope unit (commands.map fun c => (unit, c.item))
  obtain ⟨hcode', hlow', -⟩ :=
    commandOps_file (scopeAfter w.scope (commandOps (commands.map fun c => (unit, c.item)))) other program
  rw [hscope, hafter] at hrest htext
  have hfirst : Wrote w w₁ (commandOps (commands.map fun c => (unit, c.item))) := ⟨hlow.mp hlowerable, hcode ▸ hemitted⟩
  rw [commandOps_append]
  exact hfirst.trans (hlow'.mp hrest) (hcode' ▸ htext)

theorem wrote_writeFiles {w w' : Writer} {files : List (Bytes × Bytes)} (h : w.writeFiles files = (w', none)) :
    Wrote w w' (commandOps (programOf files)) := by
  induction files generalizing w with
  | nil =>
    obtain ⟨rfl, -⟩ := Prod.mk.inj h
    exact .nil w
  | cons file rest ih =>
    obtain ⟨name, text⟩ := file
    rw [Writer.writeFiles, Writer.writeFile] at h
    cases hparse : Stack.parse name (Source.ofBytes text) with
    | error e => simp [hparse] at h
    | ok commands =>
      simp only [hparse] at h
      have hcommands : commandsOf (name, text) = commands.map fun c => (unitName name, c.item) := by
        simp only [commandsOf, hparse]
      cases hall : (w.setFile (unitName name)).writeAll 0 commands with
      | mk w₁ outcome =>
        obtain ⟨count, answer⟩ := outcome
        rw [hall] at h
        cases answer with
        | some e => exact absurd h (by simp)
        | none =>
          rw [show programOf ((name, text) :: rest) = commandsOf (name, text) ++ programOf rest from rfl, hcommands]
          exact .file hall (ih h)

theorem contents_close {w w' : Writer} (h : w.close = (w', none)) : w'.sink.contents = w.emitted := by
  cases hclosed : w.closed with
  | true => simp [Writer.close_of_closed hclosed] at h
  | false =>
    obtain ⟨hflush, -⟩ := (Writer.close_eq_none_iff hclosed).mp (congrArg Prod.snd h)
    obtain ⟨-, hbuffer⟩ := Writer.emptied_of_flushStream hflush
    have htaken : (Writer.flushStream w.stream).1.outlet.taken = w.emitted := (Writer.flushStream_spec w.stream).1
    have hcontents := Writer.contents_close_of_open hclosed
    rw [h] at hcontents
    rw [hcontents, ← htaken, Stream.Buffered.taken, hbuffer, List.append_nil]

theorem wrote_start {w w' : Writer} {bootstrap : Bool} (h : w.start bootstrap = (w', none)) :
    Wrote w w' (if bootstrap then [.bootstrap] else []) ∧
      w'.scope = scopeAfter w.scope (if bootstrap then [.bootstrap] else []) := by
  unfold Writer.start at h
  cases bootstrap with
  | false =>
    obtain ⟨rfl, -⟩ := Prod.mk.inj h
    exact ⟨.nil w, rfl⟩
  | true =>
    obtain ⟨rfl, hanswer⟩ := Prod.mk.inj h
    obtain ⟨block, hlower, hemitted⟩ := w.stepped_bootstrap.done (Option.map_eq_none_iff.mp hanswer)
    have hcode : code w.scope [.bootstrap] = block := by
      rw [code_cons, Operation.block_of_lower hlower]
      exact List.append_nil block
    refine ⟨⟨.cons hlower (Wrote.nil w).lowerable, ?_⟩, (Operation.after_of_lower hlower).symm⟩
    rw [if_pos rfl, hcode]
    exact hemitted

/-- What is built is the text of the code of the program, no command of which is refused. -/
theorem build_eq_ok {bootstrap : Bool} {files : List (Bytes × Bytes)} {text : Bytes}
    (h : build bootstrap files = .ok text) : Lowerable {} (operations bootstrap (programOf files)) ∧
      text = (code {} (operations bootstrap (programOf files))).text := by
  unfold build at h
  cases hstart : (Writer.new {}).start bootstrap with
  | mk w answer =>
    cases answer with
    | some e => simp [hstart] at h
    | none =>
      cases hfiles : w.writeFiles files with
      | mk w₁ answer =>
        cases answer with
        | some e => simp [hstart, hfiles] at h
        | none =>
          cases hclose : w₁.close with
          | mk w₂ answer =>
            cases answer with
            | some e => simp [hstart, hfiles, hclose] at h
            | none =>
              simp only [hstart, hfiles, hclose, Except.ok.injEq] at h
              obtain ⟨hfirst, hscope⟩ := wrote_start hstart
              obtain ⟨hlowerable, htext⟩ := wrote_writeFiles hfiles
              rw [hscope] at hlowerable htext
              obtain ⟨hall, hemitted⟩ := hfirst.trans hlowerable htext
              rw [Writer.emitted_new] at hemitted
              exact ⟨hall, by rw [← h, contents_close hclose, hemitted]; rfl⟩

/-! ## Addresses -/

def programCode (bootstrap : Bool) (p : Program) : Block := code {} (operations bootstrap p)

def staticSymbol (file : Bytes) (index : Nat) : Bytes := file ++ [46] ++ Numeral.ofNat index

/-- Where the commands and the static variables of a program are. -/
def linkage (bootstrap : Bool) (p : Program) : Stack.Linkage where
  address k := size (programCode bootstrap (p.take k))
  static file index := symbolValue (programCode bootstrap p) (staticSymbol file index)

theorem operations_append (bootstrap : Bool) (p q : Program) :
    operations bootstrap (p ++ q) = operations bootstrap p ++ commandOps q := by
  rw [operations, operations, commandOps_append, List.append_assoc]

theorem function_scopeAfter {s : Scope} {p : Program} (h : Lowerable s (commandOps p)) :
    (scopeAfter s (commandOps p)).function = p.functions.getLast?.or s.function := by
  induction p generalizing s with
  | nil => rfl
  | cons x rest ih =>
    obtain ⟨file, c⟩ := x
    have hlower := h.tail.head
    have hfunction := (lowers_of_lower hlower).function_eq
    refine (ih h.tail.tail).trans ?_
    rw [hfunction, ← Option.or_assoc]
    congr 1
    cases hc : c.function? with
    | none => simp [Program.functions, hc]
    | some name => simp [Program.functions, hc, List.getLast?_cons]

theorem function_operations {bootstrap : Bool} {p : Program} (h : Lowerable {} (operations bootstrap p)) :
    (scopeAfter {} (operations bootstrap p)).function = p.functions.getLast? := by
  rw [operations, lowerable_append] at h
  rw [operations, scopeAfter_append, function_scopeAfter h.2]
  cases bootstrap <;> simp [scopeAfter, Operation.after, Operation.lower_bootstrap]

theorem programCode_split {bootstrap : Bool} {p : Program} {k : Nat} {file : Bytes} {c : Command}
    (h : Lowerable {} (operations bootstrap p)) (hk : p[k]? = some (file, c)) :
    ∃ s s' block rest, Lowers s c block s' ∧ s.file = file ∧ s.function = p.functionAt k ∧
      programCode bootstrap p = programCode bootstrap (p.take k) ++ block ++ rest ∧
      programCode bootstrap (p.take (k + 1)) = programCode bootstrap (p.take k) ++ block := by
  have htake : p.take (k + 1) = p.take k ++ [(file, c)] := by rw [List.take_add_one, hk]; rfl
  have hsplit : p = p.take k ++ ([(file, c)] ++ p.drop (k + 1)) := by
    rw [← List.append_assoc, ← htake, List.take_append_drop]
  have hops : operations bootstrap p =
      operations bootstrap (p.take k) ++ (commandOps [(file, c)] ++ commandOps (p.drop (k + 1))) := by
    conv_lhs => rw [hsplit]
    rw [operations_append, commandOps_append]
  rw [hops, lowerable_append, lowerable_append] at h
  obtain ⟨hbefore, hcommand, -⟩ := h
  have hlower := hcommand.tail.head
  -- the scope of the command: that of the commands before it, in its own file
  generalize hs : (Operation.file file).after (scopeAfter {} (operations bootstrap (p.take k))) = s at hlower
  have hblock : code (scopeAfter {} (operations bootstrap (p.take k))) (commandOps [(file, c)]) =
      (Operation.command c).block s := by
    rw [← hs]
    exact List.append_nil _
  refine ⟨s, _, _, code (scopeAfter (scopeAfter {} (operations bootstrap (p.take k))) (commandOps [(file, c)]))
    (commandOps (p.drop (k + 1))), lowers_of_lower hlower, by rw [← hs]; rfl, ?_, ?_, ?_⟩
  · rw [← hs]
    exact function_operations hbefore
  · rw [programCode, hops, code_append, code_append, ← List.append_assoc, hblock]
    rfl
  · rw [programCode, htake, operations_append, code_append, hblock]
    rfl

/-! ## Programs in instruction memory -/

theorem Part.wellNamed {F : Bytes → Prop} (hF : ∀ file, F file → isSymbol file = true) {s : Scope} {c : Command} {st : Statement}
    (h : Part F s c st) (hlabels : ∀ l ∈ declaredBy s c ++ addedTo s c, l.Valid F) : st.WellNamed := by
  cases h with
  | compute dest comp jump => trivial
  | register predefined => exact Statement.isSymbol_of_predefined predefined
  | target valid => exact Label.isSymbol_symbol hF valid
  | label member => exact Label.isSymbol_symbol hF (hlabels _ member)
  | static index valid => exact isSymbol_static (hF _ valid) index
  | number range => trivial

theorem wellNamed_code {ops : List Operation} (h : Lowerable {} ops)
    (hfiles : ∀ name, .file name ∈ ops → isIdentifier name = true) : ∀ st ∈ code {} ops, st.WellNamed := by
  intro st hst
  obtain ⟨x, hx, c, hc, hvalid, hlabels, hpart⟩ := parts_code (valid_empty _) h hfiles st hst
  exact hpart.wellNamed (fun _ => isSymbol_of_isIdentifier) hlabels

theorem codes_text {block : Block} (hnamed : ∀ st ∈ block, st.WellNamed) :
    Bytes.codes (block.text.splitOn 10) = block.map Statement.text := by
  rw [Block.text_eq_flatMap]
  refine Bytes.codes_of_plain ?_ ?_
  · simpa using fun st hst => Statement.all_isPlain_text (hnamed st hst)
  · simpa using fun st _ => st.text_ne_nil

theorem readAs_text {block : Block} {program : List Statement} (hnamed : ∀ st ∈ block, st.WellNamed)
    (h : Assembly.ReadAs (block.map Statement.text) program) : program = block ∧ ∀ st ∈ block, st.Readable := by
  rw [Assembly.ReadAs, List.forall₂_map_left_iff] at h
  induction h with
  | nil => simp
  | @cons st st' rest program hst hrest ih =>
    rw [List.forall_mem_cons] at hnamed ⊢
    obtain ⟨rfl, hreadable⟩ := (Statement.read_text_iff hnamed.1).mp hst
    obtain ⟨rfl, hrest⟩ := ih hnamed.2
    exact ⟨rfl, hreadable, hrest⟩

theorem assemble_text_eq_ok {block : Block} {name : Bytes} {rom : Array Instruction}
    (hnamed : ∀ st ∈ block, st.WellNamed) (h : Assembly.assemble name (Source.ofBytes block.text) = .ok rom) :
    (∀ st ∈ block, st.Readable) ∧ (labelNames block).Nodup ∧ size block ≤ Image.maxInstructions ∧
      rom.toList = words (symbolValue block) block := by
  obtain ⟨hfault, program, hread, hnodup, hsize, hwords⟩ := (Assembly.assemble_eq_ok_iff _ _ _).mp h
  rw [Bytes.codes_lines _ ((Bytes.fault_ofBytes_eq_none_iff _).mp hfault), codes_text hnamed] at hread
  obtain ⟨rfl, hreadable⟩ := readAs_text hnamed hread
  exact ⟨hreadable, hnodup, hsize, hwords⟩

/-- The instructions are those of the code of a program. -/
structure Assembled (bootstrap : Bool) (p : Program) (rom : Array Instruction) : Prop where
  files : ∀ x ∈ p, isIdentifier x.1 = true
  lowerable : Lowerable {} (operations bootstrap p)
  readable : ∀ st ∈ programCode bootstrap p, st.Readable
  nodup : (labelNames (programCode bootstrap p)).Nodup
  fits : size (programCode bootstrap p) ≤ Image.maxInstructions
  words : rom.toList = words (symbolValue (programCode bootstrap p)) (programCode bootstrap p)

/-- The code of a program leaves room behind it, so that every address in it can be loaded. -/
structure Linked (bootstrap : Bool) (p : Program) (rom : Array Instruction) : Prop extends Assembled bootstrap p rom where
  small : rom.size < Memory.maxSize

theorem mem_programOf {files : List (Bytes × Bytes)} {x : Bytes × Command} (h : x ∈ programOf files) :
    ∃ file ∈ files, x.1 = unitName file.1 := by
  obtain ⟨file, hfile, hx⟩ := List.mem_flatMap.mp h
  refine ⟨file, hfile, ?_⟩
  unfold commandsOf at hx
  split at hx
  · obtain ⟨c, -, rfl⟩ := List.mem_map.mp hx
    rfl
  · exact absurd hx (by simp)

theorem mem_operations {bootstrap : Bool} {p : Program} {unit : Bytes} (h : .file unit ∈ operations bootstrap p) :
    ∃ x ∈ p, x.1 = unit := by
  rcases List.mem_append.mp h with h | h
  · cases bootstrap <;> simp at h
  · obtain ⟨x, hx, hmem⟩ := List.mem_flatMap.mp h
    exact ⟨x, hx, by simpa [eq_comm] using hmem⟩

theorem isIdentifier_of_mem_operations {bootstrap : Bool} {p : Program} (h : ∀ x ∈ p, isIdentifier x.1 = true) (unit : Bytes)
    (hunit : .file unit ∈ operations bootstrap p) : isIdentifier unit = true := by
  obtain ⟨x, hx, rfl⟩ := mem_operations hunit
  exact h x hx

theorem assembled_of_build {bootstrap : Bool} {files : List (Bytes × Bytes)} {text name : Bytes} {rom : Array Instruction}
    (hbuild : build bootstrap files = .ok text) (hassemble : Assembly.assemble name (Source.ofBytes text) = .ok rom)
    (hfiles : ∀ file ∈ files, isIdentifier (unitName file.1) = true) : Assembled bootstrap (programOf files) rom := by
  obtain ⟨hlowerable, rfl⟩ := build_eq_ok hbuild
  have hnames : ∀ x ∈ programOf files, isIdentifier x.1 = true := by
    intro x hx
    obtain ⟨file, hfile, hname⟩ := mem_programOf hx
    rw [hname]
    exact hfiles file hfile
  obtain ⟨hreadable, hnodup, hsize, hwords⟩ :=
    assemble_text_eq_ok (wellNamed_code hlowerable (isIdentifier_of_mem_operations hnames)) hassemble
  exact ⟨hnames, hlowerable, hreadable, hnodup, hsize, hwords⟩

theorem linked_of_build {bootstrap : Bool} {files : List (Bytes × Bytes)} {text name : Bytes} {rom : Array Instruction}
    (hbuild : build bootstrap files = .ok text) (hassemble : Assembly.assemble name (Source.ofBytes text) = .ok rom)
    (hfiles : ∀ file ∈ files, isIdentifier (unitName file.1) = true) (hsmall : rom.size < Memory.maxSize) :
    Linked bootstrap (programOf files) rom := ⟨assembled_of_build hbuild hassemble hfiles, hsmall⟩

theorem exists_build {bootstrap : Bool} {files : List (Bytes × Bytes)} (h : (build bootstrap files).isOk = true) :
    ∃ text, build bootstrap files = .ok text := by
  cases hresult : build bootstrap files with
  | ok text => exact ⟨text, rfl⟩
  | error e => rw [hresult] at h; exact Bool.noConfusion h

theorem assemble_of_build (bootstrap : Bool) {files : List (Bytes × Bytes)} {p : Program} (name : Bytes)
    (hprogram : programOf files = p) (hbuild : (build bootstrap files).isOk = true) (hfiles : ∀ x ∈ p, isIdentifier x.1 = true)
    (hfits : ∀ op ∈ operations bootstrap p, ∀ c ∈ op.command?, Fits c)
    (hfunctions : ∀ op ∈ operations bootstrap p, ∀ c ∈ op.command?, DeclaresFree c)
    (hnodup : (labelNames (programCode bootstrap p)).Nodup) (hsize : size (programCode bootstrap p) ≤ Image.maxInstructions)
    (hlines : ∀ line ∈ (programCode bootstrap p).text.splitOn 10, line.length ≤ Source.lineLimit) :
    ∃ text rom, build bootstrap files = .ok text ∧ Assembly.assemble name (Source.ofBytes text) = .ok rom := by
  subst hprogram
  obtain ⟨text, hresult⟩ := exists_build hbuild
  obtain ⟨hlowerable, rfl⟩ := build_eq_ok hresult
  obtain ⟨rom, hassemble, -⟩ := assemble_text name
    (readable_code hlowerable (isIdentifier_of_mem_operations hfiles) hfits hfunctions) hnodup hsize hlines
  exact ⟨_, rom, hresult, hassemble⟩

/-- The label that a name stands for where labels belong to an owner. -/
def ownerLabel (name : Bytes) : Bytes ⊕ Bytes → Label
  | .inl function => .inFunction function name
  | .inr file => .inFile file name

theorem labelOf_eq {s : Scope} {p : Program} {k : Nat} {file : Bytes} (hfile : s.file = file)
    (hfunction : s.function = p.functionAt k) (name : Bytes) : s.labelOf name = ownerLabel name (p.ownerAt k file) := by
  unfold Scope.labelOf Program.ownerAt
  rw [hfunction, hfile]
  cases p.functionAt k <;> rfl

theorem programCode_take_isPrefix (bootstrap : Bool) (p : Program) (k : Nat) :
    programCode bootstrap (p.take k) <+: programCode bootstrap p := by
  conv_rhs => rw [← List.take_append_drop k p]
  rw [programCode, programCode, operations_append, code_append]
  exact List.prefix_append _ _

theorem size_take_le (bootstrap : Bool) (p : Program) (k : Nat) :
    size (programCode bootstrap (p.take k)) ≤ size (programCode bootstrap p) :=
  (programCode_take_isPrefix bootstrap p k).sublist.countP_le

theorem symbolValue_le {program : List Statement} {name : Bytes} (hmem : name ∈ labelNames program)
    (hfree : Assembly.predefined? name = none) : symbolValue program name ≤ size program := by
  rw [Assembly.symbolValue_of_label hfree hmem]
  exact Assembly.labelAddress_le program name

section

variable {bootstrap : Bool} {p : Program} {rom : Array Instruction} {k : Nat} {file : Bytes} {c : Command}

namespace Assembled

theorem size_eq (h : Assembled bootstrap p rom) : rom.size = size (programCode bootstrap p) := by
  rw [← Array.length_toList, h.words, Assembly.length_words]

theorem free (h : Assembled bootstrap p rom) {name : Bytes} (hname : name ∈ labelNames (programCode bootstrap p)) :
    Assembly.predefined? name = none := (h.readable _ (Assembly.mem_labelNames.mp hname)).2

theorem block (h : Assembled bootstrap p rom) (hk : p[k]? = some (file, c)) :
    ∃ s s' block, Lowers s c block s' ∧ s.file = file ∧ s.function = p.functionAt k ∧
      Installed rom (symbolValue (programCode bootstrap p)) ((linkage bootstrap p).address k) block ∧
      (linkage bootstrap p).address (k + 1) = (linkage bootstrap p).address k + size block ∧
      ∀ st ∈ block, st ∈ programCode bootstrap p := by
  obtain ⟨s, s', block, rest, hlowers, hfile, hfunction, hsplit, hnext⟩ := programCode_split h.lowerable hk
  refine ⟨s, s', block, hlowers, hfile, hfunction, ?_, ?_, fun st hst => by simp [hsplit, hst]⟩
  · exact Assembly.installed_of_words h.words h.nodup (fun name hname => h.free hname) hsplit
  · show size (programCode bootstrap (p.take (k + 1))) = size (programCode bootstrap (p.take k)) + size block
    rw [hnext, Assembly.size_append]

theorem label {name : Bytes} (h : Assembled bootstrap p rom) (hk : p[k]? = some (file, .label name)) :
    symbolValue (programCode bootstrap p) (ownerLabel name (p.ownerAt k file)).symbol = (linkage bootstrap p).address k := by
  obtain ⟨s, s', block, hlowers, hfile, hfunction, hinstalled, -⟩ := h.block hk
  cases hlowers
  rw [← labelOf_eq hfile hfunction]
  exact hinstalled.1

theorem function {name : Bytes} {locals : Int64} (h : Assembled bootstrap p rom)
    (hk : p[k]? = some (file, .function name locals)) :
    symbolValue (programCode bootstrap p) name = (linkage bootstrap p).address k := by
  obtain ⟨s, s', block, hlowers, -, -, hinstalled, -⟩ := h.block hk
  cases hlowers
  exact hinstalled.1

end Assembled

namespace Linked

theorem label_lt (h : Linked bootstrap p rom) {name : Bytes} (hname : name ∈ labelNames (programCode bootstrap p)) :
    symbolValue (programCode bootstrap p) name < Memory.maxSize :=
  Nat.lt_of_le_of_lt (symbolValue_le hname (h.free hname)) (h.size_eq ▸ h.small)

theorem address_lt (h : Linked bootstrap p rom) (k : Nat) : (linkage bootstrap p).address k < Memory.maxSize :=
  Nat.lt_of_le_of_lt (size_take_le bootstrap p k) (h.size_eq ▸ h.small)

theorem block (h : Linked bootstrap p rom) (hk : p[k]? = some (file, c)) :
    ∃ s s' block, Lowers s c block s' ∧ s.file = file ∧ s.function = p.functionAt k ∧
      Installed rom (symbolValue (programCode bootstrap p)) ((linkage bootstrap p).address k) block ∧
      (linkage bootstrap p).address (k + 1) = (linkage bootstrap p).address k + size block ∧
      (∀ st ∈ block, st.Readable) ∧
      ∀ name ∈ labelNames block, symbolValue (programCode bootstrap p) name < Memory.maxSize := by
  obtain ⟨s, s', block, hlowers, hfile, hfunction, hinstalled, hnext, hin⟩ := h.toAssembled.block hk
  refine ⟨s, s', block, hlowers, hfile, hfunction, hinstalled, hnext, fun st hst => h.readable st (hin st hst), ?_⟩
  intro name hname
  exact h.label_lt (Assembly.mem_labelNames.mpr (hin _ (Assembly.mem_labelNames.mp hname)))

end Linked

end

/-! ## Static variables -/

theorem staticSymbol_inj {file file' : Bytes} {i j : Nat} (h : staticSymbol file i = staticSymbol file' j) :
    file = file' ∧ i = j := by
  simp only [staticSymbol, List.append_assoc, List.singleton_append] at h
  exact Numeral.append_cons_ofNat_inj (by decide) h

theorem predefined?_staticSymbol (file : Bytes) (index : Nat) : Assembly.predefined? (staticSymbol file index) = none := by
  have hall : Assembly.predefined.all (fun entry => 46 ∉ entry.1) = true := by decide
  refine List.lookup_eq_none_iff.mpr fun entry hentry => ?_
  have hdot := of_decide_eq_true (List.all_eq_true.mp hall entry hentry)
  rw [bne_iff_ne]
  rintro heq
  exact hdot (by simp [← heq, staticSymbol])

/-- How many instructions of a command stand before the one that loads the address of its static variable. A pop saves the
value first. -/
def loadOffset : Command → Nat
  | .pop _ _ => 7
  | _ => 0

open Block in
theorem Lowers.block_static {s s' : Scope} {c : Command} {block : Block} {index : Nat} (h : Lowers s c block s')
    (hc : c.static? = some index) : ∃ before after,
      block = before ++ Block.symbol (staticSymbol s.file index) :: after ∧ size before = loadOffset c := by
  have hresolved : ∀ {i : Int64} {place : Block.Place}, Resolves s .static i place →
      place = .named s.file ∧ s.file ++ [46] ++ Numeral.ofInt i.toInt = staticSymbol s.file i.toInt.toNat := by
    intro i place hresolves
    refine ⟨(Option.some.inj hresolves.found).symm, ?_⟩
    rw [staticSymbol, Numeral.ofInt_of_nonneg hresolves.nonneg]
  cases h with
  | @push segment i place resolves =>
    cases segment with
    | static =>
      obtain rfl := Option.some.inj hc
      obtain ⟨rfl, hsymbol⟩ := hresolved resolves
      exact ⟨[], _, congrArg (fun name => Block.symbol name :: _) hsymbol, rfl⟩
    | _ => exact absurd hc (by simp [Command.static?])
  | @pop segment i place resolves addressed =>
    cases segment with
    | static =>
      obtain rfl := Option.some.inj hc
      obtain ⟨rfl, hsymbol⟩ := hresolved resolves
      exact ⟨[register "SP", setA .decM, setD .m, register "R13", setM .d, register "SP", setM .decM], _,
        congrArg (fun name => _ :: _ :: _ :: _ :: _ :: _ :: _ :: Block.symbol name :: _) hsymbol, rfl⟩
    | _ => exact absurd hc (by simp [Command.static?])
  | _ => exact absurd hc (by simp [Command.static?])

theorem mem_functions {bootstrap : Bool} {p : Program} {op : Operation} {name : Bytes} {locals : Int64}
    (hop : op ∈ operations bootstrap p) (hc : op.command? = some (.function name locals)) : name ∈ p.functions := by
  rcases List.mem_append.mp hop with hop | hop
  · cases bootstrap with
    | false => exact absurd hop (by simp)
    | true =>
      obtain rfl := List.mem_singleton.mp hop
      exact absurd hc (by simp [Operation.command?])
  · obtain ⟨⟨file, c⟩, hx, hmem⟩ := List.mem_flatMap.mp hop
    refine List.mem_filterMap.mpr ⟨(file, c), hx, ?_⟩
    rcases List.mem_pair.mp hmem with rfl | rfl
    · exact absurd hc (by simp [Operation.command?])
    · obtain rfl := Option.some.inj hc
      rfl

namespace Assembled

variable {bootstrap : Bool} {p : Program} {rom : Array Instruction}

theorem function_of_label (h : Assembled bootstrap p rom) {name : Bytes} (hname : name ∈ labelNames (programCode bootstrap p))
    (hdollar : 36 ∉ name) : name ∈ p.functions := by
  obtain ⟨x, hx, c, hc, -, hlabels, hpart⟩ := parts_code (valid_empty _) h.lowerable
    (isIdentifier_of_mem_operations h.files) _ (Assembly.mem_labelNames.mp hname)
  cases hpart with
  | @label l member =>
    have hentry := Label.eq_entry_of_not_dollar (fun file hfile => not_dollar_of_isIdentifier hfile) (hlabels l member)
      hdollar
    rw [hentry] at member
    obtain ⟨locals, rfl⟩ := eq_function_of_mem member
    exact mem_functions (mem_of_mem_trace hx) hc

theorem mem_code_of_static (h : Assembled bootstrap p rom) {x : Bytes × Nat} (hx : x ∈ p.statics) :
    Block.symbol (staticSymbol x.1 x.2) ∈ programCode bootstrap p := by
  obtain ⟨⟨file, c⟩, hmem, hstatic⟩ := List.mem_filterMap.mp hx
  obtain ⟨index, hindex, rfl⟩ := Option.map_eq_some_iff.mp hstatic
  obtain ⟨k, hk⟩ := List.mem_iff_getElem?.mp hmem
  obtain ⟨s, s', block, hlowers, rfl, -, -, -, hin⟩ := h.block hk
  obtain ⟨before, after, rfl, -⟩ := hlowers.block_static hindex
  exact hin _ (by simp)

/-- Static variables that are used are variables of the code, unless functions have their names. -/
theorem static_eq (h : Assembled bootstrap p rom) (hfree : ∀ x ∈ p.statics, staticSymbol x.1 x.2 ∉ p.functions)
    {x : Bytes × Nat} (hx : x ∈ p.statics) :
    staticSymbol x.1 x.2 ∈ Assembly.usesIn (programCode bootstrap p) (programCode bootstrap p) ∧
      (linkage bootstrap p).static x.1 x.2 =
        Assembly.variableAddress (Assembly.usesIn (programCode bootstrap p) (programCode bootstrap p)) (staticSymbol x.1 x.2) := by
  have hpredefined := predefined?_staticSymbol x.1 x.2
  have hlabel : staticSymbol x.1 x.2 ∉ labelNames (programCode bootstrap p) := by
    intro hname
    refine hfree x hx (h.function_of_label hname ?_)
    obtain ⟨y, hy, hstatic⟩ := List.mem_filterMap.mp hx
    obtain ⟨index, -, rfl⟩ := Option.map_eq_some_iff.mp hstatic
    have hdigits : 36 ∉ Numeral.ofNat index := Numeral.not_mem_ofNat (by decide) index
    simp [staticSymbol, not_dollar_of_isIdentifier (h.files y hy), hdigits]
  have hvariable := Assembly.isVariable_iff.mpr ⟨hpredefined, hlabel⟩
  exact ⟨Assembly.mem_usesIn.mpr ⟨h.mem_code_of_static hx, hvariable⟩, Assembly.symbolValue_of_variable hvariable⟩

theorem static_inj (h : Assembled bootstrap p rom) (hfree : ∀ x ∈ p.statics, staticSymbol x.1 x.2 ∉ p.functions)
    {x : Bytes × Nat} (hx : x ∈ p.statics) : 16 ≤ (linkage bootstrap p).static x.1 x.2 ∧
      ∀ y ∈ p.statics, (linkage bootstrap p).static x.1 x.2 = (linkage bootstrap p).static y.1 y.2 → x = y := by
  obtain ⟨hmem, hvalue⟩ := h.static_eq hfree hx
  refine ⟨hvalue ▸ Nat.le_add_right _ _, fun y hy heq => ?_⟩
  obtain ⟨hmem', hvalue'⟩ := h.static_eq hfree hy
  rw [hvalue, hvalue'] at heq
  obtain ⟨hfile, hindex⟩ := staticSymbol_inj (Assembly.variableAddress_injOn hmem hmem' heq)
  exact Prod.ext hfile hindex

end Assembled

end HackPlatform.Code
