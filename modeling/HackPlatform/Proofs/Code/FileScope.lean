import HackPlatform.Proofs.Code.Layout

/-!
# Labels outside of functions

A label outside of functions belongs to its file, and its symbol is made of the name of the file. Setting the next file does not
end the last function, though: the commands of a file before its first function are outside of functions only if no file
before it has declared one. If one has, their labels are labels of its last function (`writtenWith_of_functionAt`). So labels are
scoped to files exactly if no label is used at the head of a file behind a function (`file_scoped_iff`).
-/

namespace HackPlatform.Code

open Assembly (Statement)
open Stack (Command Program)

/-! ## Symbols of commands -/

/-- The label that a command declares or leads to. -/
def labelUsed? : Command → Option Bytes
  | .label name | .goto name | .ifGoto name => some name
  | _ => none

/-- The block of a command that declares a label or leads to it, for the symbol of the label. -/
def labelBlock (symbol : Bytes) : Command → Block
  | .label _ => [.label symbol]
  | .goto _ => Block.goto symbol
  | .ifGoto _ => Block.ifGoto symbol
  | _ => []

/-- The command with number `k` uses a label, and its block is written for the symbol. -/
def WrittenWith (bootstrap : Bool) (p : Program) (k : Nat) (symbol : Bytes) : Prop :=
  ∃ x, p[k]? = some x ∧ (labelUsed? x.2).isSome = true ∧
    programCode bootstrap (p.take (k + 1)) = programCode bootstrap (p.take k) ++ labelBlock symbol x.2

/-- The command with number `k` uses a label of the file in front of the functions of the file. -/
def AtHead (p : Program) (k : Nat) (file name : Bytes) : Prop :=
  ∃ c, p[k]? = some (file, c) ∧ labelUsed? c = some name ∧ Program.functions ((p.take k).filter (·.1 = file)) = []

/-- Labels at the head of a file have symbols with the name of the file, and share none with the labels of other files. -/
structure FileScoped (bootstrap : Bool) (p : Program) : Prop where
  symbol : ∀ k file name, AtHead p k file name → WrittenWith bootstrap p k ([36] ++ file ++ [36] ++ name)
  apart : ∀ j k file name x symbol symbol', AtHead p j file name → p[k]? = some x → x.1 ≠ file →
    WrittenWith bootstrap p j symbol → WrittenWith bootstrap p k symbol' → symbol ≠ symbol'

variable {bootstrap : Bool} {p : Program} {k : Nat} {file : Bytes} {c : Command} {name : Bytes}

theorem WrittenWith.unique {symbol symbol' : Bytes} (h : WrittenWith bootstrap p k symbol)
    (h' : WrittenWith bootstrap p k symbol') : symbol = symbol' := by
  obtain ⟨⟨file, c⟩, hk, hc, hcode⟩ := h
  obtain ⟨x, hx, -, hcode'⟩ := h'
  obtain rfl := Option.some.inj (hk.symm.trans hx)
  have hblock := List.append_cancel_left (hcode.symm.trans hcode')
  cases c with
  | label name => simpa [labelBlock] using hblock
  | goto name => simpa [labelBlock, Block.goto, Block.symbol] using hblock
  | ifGoto name => simpa [labelBlock, Block.ifGoto, Block.symbol] using hblock
  | _ => exact absurd hc (by simp [labelUsed?])

theorem WrittenWith.labelUsed {symbol : Bytes} (h : WrittenWith bootstrap p k symbol) (hk : p[k]? = some (file, c)) :
    ∃ name, labelUsed? c = some name := by
  obtain ⟨x, hx, hused, -⟩ := h
  obtain rfl := Option.some.inj (hk.symm.trans hx)
  exact Option.isSome_iff_exists.mp hused

theorem writtenWith_ownerLabel (h : Lowerable {} (operations bootstrap p)) (hk : p[k]? = some (file, c))
    (hc : labelUsed? c = some name) :
    WrittenWith bootstrap p k (ownerLabel name (p.ownerAt k file)).symbol ∧ isIdentifier name = true := by
  obtain ⟨s, s', block, rest, hlowers, hfile, hfunction, -, hnext⟩ := programCode_split h hk
  rw [← labelOf_eq hfile hfunction]
  cases hlowers with
  | label names =>
    obtain rfl := Option.some.inj hc
    exact ⟨⟨_, hk, rfl, hnext⟩, names.1⟩
  | goto names =>
    obtain rfl := Option.some.inj hc
    exact ⟨⟨_, hk, rfl, hnext⟩, names.1⟩
  | ifGoto names =>
    obtain rfl := Option.some.inj hc
    exact ⟨⟨_, hk, rfl, hnext⟩, names.1⟩
  | _ => exact absurd hc (by simp [labelUsed?])

theorem isIdentifier_of_mem_functions (h : Lowerable {} (operations bootstrap p)) (hname : name ∈ p.functions) :
    isIdentifier name = true := by
  obtain ⟨k, file, locals, hk⟩ := Program.exists_of_mem_functions hname
  obtain ⟨s, s', block, rest, hlowers, -⟩ := programCode_split h hk
  cases hlowers with
  | function named nonneg => exact named

theorem valid_ownerLabel (h : Lowerable {} (operations bootstrap p)) (hk : p[k]? = some (file, c))
    (hc : labelUsed? c = some name) (hdollar : 36 ∉ file) :
    (ownerLabel name (p.ownerAt k file)).Valid fun file => 36 ∉ file := by
  have hname := (writtenWith_ownerLabel h hk hc).2
  unfold Program.ownerAt
  cases hfunction : p.functionAt k with
  | none => exact ⟨hdollar, hname⟩
  | some function =>
    exact ⟨isIdentifier_of_mem_functions h (Program.mem_functions_of_functionAt hfunction), hname⟩

theorem functionAt_eq_none_iff : p.functionAt k = none ↔ Program.functions (p.take k) = [] := List.getLast?_eq_none_iff

theorem writtenWith_of_functionAt {function : Bytes} (h : Lowerable {} (operations bootstrap p))
    (hk : p[k]? = some (file, c)) (hc : labelUsed? c = some name) (hfunction : p.functionAt k = some function) :
    WrittenWith bootstrap p k (function ++ [36] ++ name) := by
  have howner := (writtenWith_ownerLabel h hk hc).1
  rw [Program.ownerAt, hfunction] at howner
  exact howner

theorem writtenWith_of_functions_eq_nil (h : Lowerable {} (operations bootstrap p)) (hk : p[k]? = some (file, c))
    (hc : labelUsed? c = some name) (hnone : Program.functions (p.take k) = []) :
    WrittenWith bootstrap p k ([36] ++ file ++ [36] ++ name) := by
  have howner := (writtenWith_ownerLabel h hk hc).1
  rw [Program.ownerAt, functionAt_eq_none_iff.mpr hnone] at howner
  exact howner

theorem functions_eq_nil_of_writtenWith (h : Lowerable {} (operations bootstrap p)) (hk : p[k]? = some (file, c))
    (hc : labelUsed? c = some name) (hdollar : 36 ∉ file)
    (hwritten : WrittenWith bootstrap p k ([36] ++ file ++ [36] ++ name)) : Program.functions (p.take k) = [] := by
  obtain ⟨howner, hname⟩ := writtenWith_ownerLabel h hk hc
  have hfile : (Label.inFile file name).Valid fun file => 36 ∉ file := ⟨hdollar, hname⟩
  have hlabel : ownerLabel name (p.ownerAt k file) = .inFile file name :=
    Label.symbol_injOn (fun _ hfree => hfree) (valid_ownerLabel h hk hc hdollar) hfile (howner.unique hwritten)
  rw [← functionAt_eq_none_iff]
  unfold Program.ownerAt at hlabel
  cases hfunction : p.functionAt k with
  | none => rfl
  | some function =>
    rw [hfunction] at hlabel
    exact Label.noConfusion hlabel

theorem ne_of_functions_eq_nil {j : Nat} {file' name' symbol symbol' : Bytes} {c' : Command}
    (h : Lowerable {} (operations bootstrap p)) (hj : p[j]? = some (file, c)) (hc : labelUsed? c = some name)
    (hnone : Program.functions (p.take j) = []) (hk : p[k]? = some (file', c')) (hc' : labelUsed? c' = some name')
    (hdollar : ∀ x ∈ p, 36 ∉ x.1) (hne : file' ≠ file) (hsymbol : WrittenWith bootstrap p j symbol)
    (hsymbol' : WrittenWith bootstrap p k symbol') : symbol ≠ symbol' := by
  rintro rfl
  have hlabel : ownerLabel name (p.ownerAt j file) = ownerLabel name' (p.ownerAt k file') := by
    apply Label.symbol_injOn (fun _ hfree => hfree) (valid_ownerLabel h hj hc (hdollar _ (List.mem_of_getElem? hj)))
      (valid_ownerLabel h hk hc' (hdollar _ (List.mem_of_getElem? hk)))
    rw [(writtenWith_ownerLabel h hj hc).1.unique hsymbol, (writtenWith_ownerLabel h hk hc').1.unique hsymbol']
  -- the first label belongs to its file, so the second one would have to belong to the same file
  simp only [Program.ownerAt, functionAt_eq_none_iff.mpr hnone] at hlabel
  cases hfunction : p.functionAt k with
  | none =>
    rw [hfunction] at hlabel
    obtain ⟨hfile, -⟩ := Label.inFile.inj hlabel
    exact hne hfile.symm
  | some function =>
    rw [hfunction] at hlabel
    exact Label.noConfusion hlabel

/-- Labels are scoped to their files exactly if no label is used at the head of a file behind a function, of whatever file. Behind a
function, a command uses a label of that function. -/
theorem file_scoped_iff {files : List (Bytes × Bytes)} {text : Bytes} (hbuild : build bootstrap files = .ok text)
    (hdollar : ∀ file ∈ files, 36 ∉ unitName file.1) :
    let p := programOf files
    text = (programCode bootstrap p).text ∧
      (FileScoped bootstrap p ↔ ∀ k file name, AtHead p k file name → Program.functions (p.take k) = []) ∧
      ∀ k file c name function, p[k]? = some (file, c) → labelUsed? c = some name → p.functionAt k = some function →
        WrittenWith bootstrap p k (function ++ [36] ++ name) := by
  intro p
  obtain ⟨h, htext⟩ := build_eq_ok hbuild
  have hfree : ∀ x ∈ p, 36 ∉ x.1 := by
    intro x hx
    obtain ⟨file, hfile, hname⟩ := mem_programOf hx
    rw [hname]
    exact hdollar file hfile
  refine ⟨htext, ⟨?_, ?_⟩, fun k file c name function hk hc => writtenWith_of_functionAt h hk hc⟩
  · intro hscoped k file name hhead
    have hwritten := hscoped.symbol k file name hhead
    obtain ⟨c, hk, hc, -⟩ := hhead
    exact functions_eq_nil_of_writtenWith h hk hc (hfree _ (List.mem_of_getElem? hk)) hwritten
  · intro hnone
    constructor
    · rintro k file name ⟨c, hk, hc, hown⟩
      exact writtenWith_of_functions_eq_nil h hk hc (hnone k file name ⟨c, hk, hc, hown⟩)
    · rintro j k file name ⟨file', c'⟩ symbol symbol' ⟨c, hj, hc, hown⟩ hk hne hsymbol hsymbol'
      obtain ⟨name', hc'⟩ := hsymbol'.labelUsed hk
      exact ne_of_functions_eq_nil h hj hc (hnone j file name ⟨c, hj, hc, hown⟩) hk hc' hfree hne hsymbol hsymbol'

/-- Labels at the head of the first of two files, and in a function of each. -/
theorem file_scoped_iff_files :
    let files := [(ascii "A.vm", ascii "label L\ngoto L\nfunction A.f 0\nlabel L\n"),
      (ascii "B.vm", ascii "function B.g 0\nlabel L\nif-goto L\n")]
    ∃ text, build true files = .ok text ∧ FileScoped true (programOf files) ∧
      WrittenWith true (programOf files) 1 (ascii "$A$L") ∧ WrittenWith true (programOf files) 6 (ascii "B.g$L") := by
  intro files
  have hprogram : programOf files = [(ascii "A", .label (ascii "L")), (ascii "A", .goto (ascii "L")),
      (ascii "A", .function (ascii "A.f") 0), (ascii "A", .label (ascii "L")), (ascii "B", .function (ascii "B.g") 0),
      (ascii "B", .label (ascii "L")), (ascii "B", .ifGoto (ascii "L"))] := by
    decide +kernel
  obtain ⟨text, hbuild⟩ : ∃ text, build true files = .ok text := exists_build (by decide +kernel)
  obtain ⟨-, hiff, hbehind⟩ := file_scoped_iff hbuild (by decide +kernel)
  have hscoped : FileScoped true (programOf files) := by
    have hall : ∀ k < 7, ∀ x ∈ (programOf files)[k]?, (labelUsed? x.2).isSome = true →
        Program.functions (((programOf files).take k).filter (·.1 = x.1)) = [] →
        Program.functions ((programOf files).take k) = [] := by
      rw [hprogram]
      decide +kernel
    rw [hiff]
    rintro k file name ⟨c, hk, hc, hown⟩
    have hlt : k < (programOf files).length := (List.getElem?_eq_some_iff.mp hk).1
    rw [hprogram] at hlt
    exact hall k hlt _ hk (by rw [hc]; rfl) hown
  have hfirst := hscoped.symbol 1 (ascii "A") (ascii "L") (by rw [hprogram]; exact ⟨_, rfl, rfl, by decide⟩)
  have hlast := hbehind 6 (ascii "B") (.ifGoto (ascii "L")) (ascii "L") (ascii "B.g") (by rw [hprogram]; rfl) rfl
    (by rw [hprogram]; decide)
  exact ⟨text, hbuild, hscoped, hfirst, hlast⟩

/-- A label at the head of a file behind one that declares a function: it is a label of that function. -/
theorem label_joins_function_of_other_file :
    let files := [(ascii "A.vm", ascii "function A.f 0\n"), (ascii "B.vm", ascii "label L\n")]
    build false files = .ok (ascii "(A.f)\n(A.f$L)\n") ∧ AtHead (programOf files) 1 (ascii "B") (ascii "L") ∧
      WrittenWith false (programOf files) 1 (ascii "A.f$L") ∧ ¬FileScoped false (programOf files) := by
  intro files
  have hprogram : programOf files = [(ascii "A", .function (ascii "A.f") 0), (ascii "B", .label (ascii "L"))] := by
    decide +kernel
  have hhead : AtHead (programOf files) 1 (ascii "B") (ascii "L") := by
    rw [hprogram]
    exact ⟨_, rfl, rfl, by decide⟩
  have hwritten : WrittenWith false (programOf files) 1 (ascii "A.f$L") := by
    rw [hprogram]
    exact ⟨_, rfl, rfl, by decide +kernel⟩
  refine ⟨by decide +kernel, hhead, hwritten, fun hscoped => ?_⟩
  exact absurd (hwritten.unique (hscoped.symbol 1 _ _ hhead)) (by decide)

end HackPlatform.Code
