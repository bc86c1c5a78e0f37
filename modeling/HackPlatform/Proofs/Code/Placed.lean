import HackPlatform.Proofs.Assembly.ComputeLine
import HackPlatform.Proofs.Assembly.Range
import HackPlatform.Proofs.Code.Layout

/-!
# Blocks inside of larger texts

A block may stand in any text, as long as it has lines of its own (`StandsAt`). Where that text is assembled, the lines are read as the
statements of the block, so the block is installed behind the instructions of the lines before it (`installed_of_standsAt`): the blocks
below are executed wherever they stand, whatever surrounds them.
-/

namespace HackPlatform.Code

open Assembly (Statement Installed labelNames size symbolValue)
open Stack (Command)

/-- The text of a block stands in a text on lines of its own, behind `pc` lines that hold an instruction. -/
def StandsAt (text : Bytes) (pc : Nat) (block : Block) : Prop :=
  ∃ before after, text = before ++ block.text ++ after ∧ (before = [] ∨ before.getLast? = some 10) ∧
    (Bytes.codes (before.splitOn 10)).countP (·.head? != some 40) = pc

theorem Lowers.wellNamed {s s' : Scope} {c : Command} {block : Block} (h : Lowers s c block s')
    (hs : s.Valid fun file => isSymbol file = true) : ∀ st ∈ block, st.WellNamed :=
  fun st hst => (h.parts hs st hst).wellNamed (fun _ => id) (h.valid_labels hs)

theorem getLast?_text (block : Block) : block.text = [] ∨ block.text.getLast? = some 10 := by
  rw [Block.text_eq_flatMap]
  cases block using List.reverseRecOn with
  | nil => exact .inl rfl
  | append_singleton front st => simp

theorem value_le_of_installed {rom : Array Instruction} {value : Bytes → Nat} {pc : Nat} {block : Block} {name : Bytes}
    (h : Installed rom value pc block) (hname : name ∈ labelNames block) : value name ≤ pc + size block := by
  obtain ⟨front, back, rfl⟩ := List.append_of_mem (Assembly.mem_labelNames.mp hname)
  obtain ⟨-, hvalue, -⟩ := (Assembly.installed_append _ _).mp h
  rw [hvalue, Assembly.size_append]
  omega

/-- In instruction memory that a text is assembled to, every block that stands in the text is installed. -/
theorem installed_of_standsAt {text name : Bytes} {rom : Array Instruction} {program : List Statement} {pc : Nat} {block : Block}
    (hassemble : Assembly.assemble name (Source.ofBytes text) = .ok rom)
    (hread : Assembly.ReadAs (Bytes.codes (text.splitOn 10)) program) (hnamed : ∀ st ∈ block, st.WellNamed)
    (hstands : StandsAt text pc block) :
    Installed rom (symbolValue program) pc block ∧ (∀ st ∈ block, st.Readable) ∧ pc + size block ≤ Memory.maxSize := by
  obtain ⟨hfault, program', hread', hnodup, hsize, hwords⟩ := (Assembly.assemble_eq_ok_iff _ _ _).mp hassemble
  rw [Bytes.codes_lines _ ((Bytes.fault_ofBytes_eq_none_iff _).mp hfault)] at hread'
  obtain rfl := hread'.unique hread
  have hfree : ∀ name ∈ labelNames program', Assembly.predefined? name = none :=
    fun name hname => (hread.readable _ (Assembly.mem_labelNames.mp hname)).2
  obtain ⟨before, after, rfl, hbefore, rfl⟩ := hstands
  rw [List.append_assoc, Bytes.codes_splitOn_append hbefore, Bytes.codes_splitOn_append (getLast?_text block),
    codes_text hnamed] at hread
  obtain ⟨front, rest, rfl, hfront, hrest⟩ := hread.of_append
  obtain ⟨middle, back, rfl, hmiddle, -⟩ := hrest.of_append
  obtain ⟨rfl, hreadable⟩ := readAs_text hnamed hmiddle
  rw [← Assembly.size_of_readAs hfront]
  refine ⟨Assembly.installed_of_words hwords hnodup hfree (List.append_assoc _ _ _).symm, hreadable, ?_⟩
  have hle : size (front ++ (middle ++ back)) ≤ Memory.maxSize := hsize
  rw [Assembly.size_append, Assembly.size_append] at hle
  omega

theorem exists_installed {text name : Bytes} {rom : Array Instruction}
    (hassemble : Assembly.assemble name (Source.ofBytes text) = .ok rom) :
    ∃ program : List Statement, ∀ pc block, (∀ st ∈ block, st.WellNamed) → StandsAt text pc block →
      Installed rom (symbolValue program) pc block ∧ (∀ st ∈ block, st.Readable) ∧ pc + size block ≤ Memory.maxSize := by
  obtain ⟨hfault, program, hread, -⟩ := (Assembly.assemble_eq_ok_iff _ _ _).mp hassemble
  rw [Bytes.codes_lines _ ((Bytes.fault_ofBytes_eq_none_iff _).mp hfault)] at hread
  exact ⟨program, fun pc block hnamed hstands => installed_of_standsAt hassemble hread hnamed hstands⟩

end HackPlatform.Code
