import HackPlatform.Proofs.Code.Lowering
import HackPlatform.Proofs.Code.Refused
import HackPlatform.Proofs.Stack.Printing

/-!
# Writers and readers accept the same commands

Reading a program checks its commands on their text, writing one checks their values. The two agree: a command that has a block
is well-formed (`Lowers.wellFormed`), and a well-formed one has a block wherever the file has a name (`exists_lower_iff`). So
a writer takes exactly the commands that reading gives back from their written forms (`write_iff_parse_text`).
-/

namespace HackPlatform.Code

open Stack (Command Segment Op)

theorem mem_all_of_place? {s : Scope} {segment : Segment} {place : Block.Place} (h : s.place? segment = some place) :
    segment ∈ Segment.all ∧ (segment = .constant ↔ place = .immediate) := by
  cases segment with
  | unknown code => exact absurd h (by simp [Scope.place?])
  | _ =>
    obtain rfl := Option.some.inj h
    exact ⟨by decide, by simp⟩

theorem exists_place? (s : Scope) {segment : Segment} (h : segment ∈ Segment.all) :
    ∃ place, s.place? segment = some place := by
  cases segment with
  | unknown code => exact absurd h (by simp [Segment.all])
  | _ => exact ⟨_, rfl⟩

theorem Lowers.wellFormed {s s' : Scope} {c : Command} {block : Block} (h : Lowers s c block s') : c.WellFormed := by
  cases h with
  | compare order =>
    show test order ∈ Op.all
    cases order <;> decide
  | @binary op _ operation =>
    show op ∈ Op.all
    simp only [List.mem_cons, Prod.mk.injEq, List.not_mem_nil, or_false] at operation
    obtain ⟨rfl, -⟩ | ⟨rfl, -⟩ | ⟨rfl, -⟩ | ⟨rfl, -⟩ := operation <;> decide
  | @unary op _ operation =>
    show op ∈ Op.all
    simp only [List.mem_cons, Prod.mk.injEq, List.not_mem_nil, or_false] at operation
    obtain ⟨rfl, -⟩ | ⟨rfl, -⟩ := operation <;> decide
  | push resolves =>
    obtain ⟨hnamed, hconstant⟩ := mem_all_of_place? resolves.found
    exact ⟨hnamed, resolves.nonneg, fun h => resolves.constant (hconstant.mp h)⟩
  | pop resolves addressed =>
    obtain ⟨hnamed, hconstant⟩ := mem_all_of_place? resolves.found
    exact ⟨hnamed, fun h => addressed (hconstant.mp h), resolves.nonneg⟩
  | label names => exact names.1
  | goto names => exact names.1
  | ifGoto names => exact names.1
  | function named nonneg => exact ⟨named, nonneg⟩
  | call named nonneg => exact ⟨named, nonneg⟩
  | «return» => trivial

theorem resolve_of_place? {s : Scope} {segment : Segment} {index : Int64} {place : Block.Place}
    (hplace : s.place? segment = some place) (hnonneg : 0 ≤ index.toInt)
    (hconstant : segment = .constant → index.toInt ≤ 32767) (hstatic : segment = .static → s.file ≠ []) :
    s.resolve segment index = .ok place := by
  have hindex : ¬index < 0 := by
    rw [Int64.lt_iff_toInt_lt]
    simpa using hnonneg
  have hrange : ¬(place = .immediate ∧ Scope.constantLimit ≤ index) := by
    rintro ⟨himmediate, hle⟩
    have hlimit : Scope.constantLimit.toInt = 32768 := by decide
    have hsmall := hconstant ((mem_all_of_place? hplace).2.mpr himmediate)
    rw [Int64.le_iff_toInt_le] at hle
    omega
  have hfile : ¬(segment = .static ∧ s.file = []) := fun h => hstatic h.1 h.2
  simp [Scope.resolve, hplace, hindex, hrange, hfile]

theorem exists_branch {s : Scope} (hfile : s.file ≠ []) {name : Bytes} (hname : isIdentifier name = true)
    (make : Bytes → Block) : ∃ result, s.branch name make = .ok result := by
  unfold Scope.branch Scope.label
  cases s.function with
  | some function => exact ⟨_, by simp [hname]; rfl⟩
  | none => exact ⟨_, by simp [hname, hfile]; rfl⟩

theorem exists_lower_iff {s : Scope} (hfile : s.file ≠ []) (c : Command) :
    (∃ result, s.lower c = .ok result) ↔ c.WellFormed := by
  constructor
  · rintro ⟨⟨block, s'⟩, h⟩
    exact (lowers_of_lower h).wellFormed
  · intro h
    cases c with
    | arithmetic op =>
      cases op with
      | unknown code =>
        have hnamed : Op.unknown code ∈ Op.all := h
        exact absurd hnamed (by simp [Op.all])
      | _ => exact ⟨_, rfl⟩
    | push segment index =>
      obtain ⟨place, hplace⟩ := exists_place? s h.1
      exact ⟨_, by rw [Scope.lower, Scope.push, resolve_of_place? hplace h.2.1 h.2.2 fun _ => hfile]⟩
    | pop segment index =>
      obtain ⟨place, hplace⟩ := exists_place? s h.1
      have himmediate := mt (mem_all_of_place? hplace).2.mpr h.2.1
      have hresolve := resolve_of_place? hplace h.2.2 (fun hconstant => absurd hconstant h.2.1) fun _ => hfile
      cases place with
      | immediate => exact absurd rfl himmediate
      | _ => exact ⟨_, by rw [Scope.lower, Scope.pop, hresolve]⟩
    | label name => exact exists_branch hfile h _
    | goto name => exact exists_branch hfile h _
    | ifGoto name => exact exists_branch hfile h _
    | function name locals =>
      have hlocals : ¬locals < 0 := by
        rw [Int64.lt_iff_toInt_lt]
        simpa using h.2
      exact ⟨_, by simp [Scope.lower, Scope.declare, h.1, hlocals]; rfl⟩
    | call name arguments =>
      have harguments : ¬arguments < 0 := by
        rw [Int64.lt_iff_toInt_lt]
        simpa using h.2
      exact ⟨_, by simp [Scope.lower, Scope.call, h.1, harguments]; rfl⟩
    | «return» => exact ⟨_, rfl⟩
    | unknown code => exact False.elim h

/-- A ready writer takes exactly the commands that have a block. -/
theorem Writer.Ready.write_eq_none_iff {w : Writer} (h : w.Ready) (c : Located Command) :
    (w.write c).2 = none ↔ ∃ result, w.scope.lower c.item = .ok result := by
  rw [Operation.snd_write_eq_none_iff]
  cases hlower : w.scope.lower c.item with
  | error refusal =>
    obtain ⟨-, e, he, -⟩ := Operation.perform_of_refused hlower
    simp [he]
  | ok result =>
    have hnone := (Operation.command c.item).apply_of_unlimited h.isOpen h.unlimited h.intact hlower (by simp)
    exact ⟨fun _ => ⟨_, rfl⟩, fun _ => hnone⟩

/-- Writing and reading accept the same commands: a writer that is open and has a file name, on a sink that never fails,
takes a command exactly if its written form is read as this one command. -/
theorem write_iff_parse_text {sink : Stream.Sink} (hlimit : sink.limit = none) {before : List Operation}
    (hopen : .close ∉ before) (c : Located Command) (hlength : c.item.text.length ≤ Source.lineLimit) (name : Bytes) :
    let w := run (Writer.new sink) before
    w.scope.file ≠ [] →
      ((w.write c).2 = none ↔ ∃ pos, Stack.parse name (Source.ofBytes c.item.text) = .ok [⟨pos, c.item⟩]) := by
  intro w hfile
  have hready : w.Ready := (Writer.Ready.new hlimit).run hopen
  rw [hready.write_eq_none_iff, exists_lower_iff hfile, Stack.parse_text_eq_ok_iff c.item name hlength]

/-- A label with a comment in its name: its written form is read as a command, but as another one. -/
theorem write_iff_parse_text_comment :
    let w := run (Writer.new {}) [.file (ascii "A")]
    let c : Located Command := ⟨{}, .label (ascii "x//y")⟩
    w.scope.file ≠ [] ∧ c.item.text.length ≤ Source.lineLimit ∧ (w.write c).2 ≠ none ∧
      ((w.write c).2 = none ↔
        ∃ pos, Stack.parse (ascii "A.vm") (Source.ofBytes c.item.text) = .ok [⟨pos, c.item⟩]) := by
  intro w c
  have hfile : w.scope.file ≠ [] := by decide
  have hlength : c.item.text.length ≤ Source.lineLimit := by decide
  have hrefused : (w.write c).2 = some (.refused (.invalidLabel (ascii "x//y"))) := rfl
  exact ⟨hfile, hlength, by simp [hrefused], write_iff_parse_text rfl (by decide) c hlength (ascii "A.vm") hfile⟩

end HackPlatform.Code
