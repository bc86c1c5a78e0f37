import HackPlatform.Proofs.Code.Acceptance
import HackPlatform.Proofs.Code.Placed
import HackPlatform.Proofs.Code.Simulation

/-!
# Pushes and pops anywhere in a program

The blocks of pushes and pops are executed wherever they stand in an assembled text (`Block.Performs`), in memory of any size
that holds the cells they touch, and whatever these cells hold. The stack may be empty or in the way of the registers, and the
entry may be one of the cells that the block itself uses: then the order of its stores decides, and `pushed` and `popped` give
them in that order (`push_pop_blocks_perform`).
-/

namespace HackPlatform.Code

open Assembly (Statement Installed Moves ReadAs size symbolValue)
open Stack (Linkage Segment sp)

/-- The static variables of a program in assembly. -/
def variablesOf (program : List Statement) : Linkage where
  address _ := 0
  static file index := symbolValue program (staticSymbol file index)

/-- Wherever the block stands in a text that is assembled, a computer without a keyboard gets from its first instruction to the
one behind it without an error and leaves the memory that `effect` gives. The symbols that the block loads have to fit a load
instruction, and `cells` have to be in memory. -/
def Block.Performs (block : Block) (cells : Linkage → Cells → List Nat) (effect : Linkage → Cells → Option Cells) : Prop :=
  ∀ text name rom program pc, Assembly.assemble name (Source.ofBytes text) = .ok rom →
    ReadAs (Bytes.codes (text.splitOn 10)) program → StandsAt text pc block →
    (∀ symbol, Block.symbol symbol ∈ block → symbolValue program symbol < Memory.maxSize) →
    ∀ machine : Computer, machine.rom = rom → machine.pc = pc → machine.keyboard = none →
      (∀ i ∈ cells (variablesOf program) machine.ram.read, i < machine.ram.size) →
      ∃ m machine', effect (variablesOf program) machine.ram.read = some m ∧ machine.Reaches machine' ∧
        machine'.pc = (pc + size block : Nat) ∧ machine'.ram.size = machine.ram.size ∧ machine'.ram.read = m

/-- The cells that a push touches. -/
def pushCells (segment : Segment) (file : Bytes) (index : Int64) (link : Linkage) (m : Cells) : List Nat :=
  [0, sp m] ++ entryCells segment file index link m

/-- The cells that a pop touches. -/
def popCells (segment : Segment) (file : Bytes) (index : Int64) (link : Linkage) (m : Cells) : List Nat :=
  [0, (m 0 - 1).toNat, 13, 14] ++ entryCells segment file index link m

theorem Block.performs_of_moves {block : Block} {cells : Linkage → Cells → List Nat} {effect : Linkage → Cells → Option Cells}
    (hnamed : ∀ st ∈ block, st.WellNamed)
    (h : ∀ (rom : Array Instruction) (program : List Statement) (room pc : Nat) (m : Cells),
      Installed rom (symbolValue program) pc block → (∀ st ∈ block, st.Readable) →
      (∀ symbol, Block.symbol symbol ∈ block → symbolValue program symbol < Memory.maxSize) →
      (∀ i ∈ cells (variablesOf program) m, i < room) →
      ∃ m', effect (variablesOf program) m = some m' ∧ Moves rom room pc m (pc + size block) m') : block.Performs cells effect := by
  rintro text name rom program pc hassemble hread hstands hsymbols machine rfl hpc hkeyboard hcells
  obtain ⟨hinstalled, hreadable, -⟩ := installed_of_standsAt hassemble hread hnamed hstands
  obtain ⟨m', heffect, hmoves⟩ := h machine.rom program machine.ram.size pc machine.ram.read hinstalled hreadable hsymbols hcells
  obtain ⟨machine', a, d, hreaches, hshows⟩ := hmoves machine machine.a machine.d ⟨rfl, hpc, rfl, hkeyboard, rfl, rfl, rfl⟩
  exact ⟨m', machine', heffect, hreaches, hshows.pc, hshows.size, hshows.cells⟩

section

variable {s : Scope} {segment : Segment} {index : Int64} {place : Block.Place}

/-- Only static variables depend on the file, and no entry depends on anything else of the scope. -/
theorem Resolves.of_file {s' : Scope} (h : Resolves s segment index place) (hfile : segment = .static → s'.file = s.file) :
    Resolves s' segment index place := by
  refine ⟨?_, h.nonneg, h.constant, fun hstatic => hfile hstatic ▸ h.static hstatic⟩
  have hfound := h.found
  cases segment with
  | static => rw [← hfound, Scope.place?, Scope.place?, hfile rfl]
  | _ => exact hfound

theorem Resolves.exists_valid (h : Resolves s segment index place) (hfile : segment = .static → isSymbol s.file = true) :
    ∃ s' : Scope, s'.Valid (fun file => isSymbol file = true) ∧ Resolves s' segment index place := by
  by_cases hstatic : segment = .static
  · exact ⟨{ file := s.file }, ⟨by simp, fun _ => hfile hstatic⟩, h.of_file fun _ => rfl⟩
  · exact ⟨{}, valid_empty _, h.of_file fun heq => absurd heq hstatic⟩

theorem Resolves.wellNamed_push (h : Resolves s segment index place) (hfile : segment = .static → isSymbol s.file = true) :
    ∀ st ∈ Block.push place index, st.WellNamed := by
  obtain ⟨s', hvalid, h'⟩ := h.exists_valid hfile
  exact (Lowers.push h').wellNamed hvalid

theorem Resolves.wellNamed_pop (h : Resolves s segment index place) (haddressed : place ≠ .immediate)
    (hfile : segment = .static → isSymbol s.file = true) : ∀ st ∈ Block.pop place index, st.WellNamed := by
  obtain ⟨s', hvalid, h'⟩ := h.exists_valid hfile
  exact (Lowers.pop h' haddressed).wellNamed hvalid

theorem Resolves.static_lt {program : List Statement} {m : Cells} {cell : Nat} (h : Resolves s segment index place)
    (hsymbols : ∀ symbol, Block.symbol symbol ∈ Block.address place index → symbolValue program symbol < Memory.maxSize)
    (hstatic : segment = .static) (hcell : segment.cell? (variablesOf program) s.file m index = some cell) :
    cell < Memory.maxSize := by
  subst hstatic
  obtain rfl := Option.some.inj h.found
  obtain rfl := Option.some.inj hcell
  have hlt := hsymbols _ (List.mem_singleton.mpr rfl)
  rwa [Numeral.ofInt_of_nonneg h.nonneg] at hlt

theorem performs_push (h : Resolves s segment index place) (hfile : segment = .static → isSymbol s.file = true) :
    (Block.push place index).Performs (pushCells segment s.file index) fun link m =>
      (segment.word? link s.file m index).map (pushed m) := by
  refine Block.performs_of_moves (h.wellNamed_push hfile) ?_
  intro rom program room pc m hinstalled hreadable hsymbols hcells
  simp only [pushCells, List.forall_mem_append, List.forall_mem_cons] at hcells
  obtain ⟨⟨hzero, hsp, -⟩, hentry⟩ := hcells
  have hstatic : ∀ cell, segment = .static → segment.cell? (variablesOf program) s.file m index = some cell →
      cell < Memory.maxSize :=
    fun cell => h.static_lt fun symbol hsymbol => hsymbols symbol (address_subset_push place index hsymbol)
  obtain ⟨w, hword, hmoves⟩ := h.moves_push (fun _ _ => rfl) hinstalled hreadable hstatic hentry hzero hsp
  exact ⟨pushed m w, by rw [hword, Option.map_some], hmoves⟩

theorem performs_pop (h : Resolves s segment index place) (haddressed : place ≠ .immediate)
    (hfile : segment = .static → isSymbol s.file = true) :
    (Block.pop place index).Performs (popCells segment s.file index) fun link m =>
      (segment.cell? link s.file m index).map (popped m) := by
  refine Block.performs_of_moves (h.wellNamed_pop haddressed hfile) ?_
  intro rom program room pc m hinstalled hreadable hsymbols hcells
  simp only [popCells, List.forall_mem_append, List.forall_mem_cons] at hcells
  obtain ⟨⟨-, htop, -, hscratch, -⟩, hentry⟩ := hcells
  have hstatic : ∀ cell, segment = .static → segment.cell? (variablesOf program) s.file m index = some cell →
      cell < Memory.maxSize :=
    fun cell => h.static_lt fun symbol hsymbol => hsymbols symbol (address_subset_pop place index hsymbol)
  obtain ⟨cell, hcell, hmoves⟩ := h.moves_pop haddressed (fun _ _ => rfl) hinstalled hreadable hstatic hentry hscratch htop
  exact ⟨popped m cell, by rw [hcell, Option.map_some], hmoves⟩

end

/-- Whatever the entry is, a pop leaves the value of the top of the stack in it. Of the other cells only the stack pointer and cells
13 and 14 change. -/
theorem popped_spec (m : Cells) (cell : Nat) :
    popped m cell cell = m (m 0 - 1).toNat ∧ (cell ≠ 0 → popped m cell 0 = m 0 - 1) ∧
      ∀ i, i ∉ [0, 13, 14, cell] → popped m cell i = m i := by
  refine ⟨Function.update_self .., fun hne => ?_, fun i hi => ?_⟩
  · rw [popped, Function.update_of_ne (Ne.symm hne), Function.update_of_ne (by decide), Function.update_self]
  · simp only [List.mem_cons, List.not_mem_nil, or_false, not_or] at hi
    obtain ⟨h0, h13, h14, hcell⟩ := hi
    rw [popped, Function.update_of_ne hcell, Function.update_of_ne h14, Function.update_of_ne h0, Function.update_of_ne h13]

/-- Pushes and pops do what they mean wherever their blocks stand in a program that is assembled, for every entry of every segment
and every content of memory. A push stores the constant or the word of the entry where the stack pointer points, and then moves the
stack pointer up. A pop stores the value in cell 13, the stack pointer, the address of the entry in cell 14 and the value in the
entry, in this order. So the value arrives although the entry may be cell 13, cell 14 or the base of a segment. -/
theorem push_pop_blocks_perform (s : Scope) {segment : Segment} {index : Int64} (hsegment : segment ∈ Segment.all)
    (hindex : 0 ≤ index.toInt) (hconstant : segment = .constant → index.toInt ≤ 32767)
    (hfile : segment = .static → isSymbol s.file = true) :
    (∃ block, s.push segment index = .ok (block, s) ∧ block.Performs (pushCells segment s.file index) fun link m =>
      (segment.word? link s.file m index).map (pushed m)) ∧
    (segment ≠ .constant → ∃ block, s.pop segment index = .ok (block, s) ∧
      block.Performs (popCells segment s.file index) fun link m => (segment.cell? link s.file m index).map (popped m)) ∧
    ∀ m cell, popped m cell cell = m (m 0 - 1).toNat ∧ (cell ≠ 0 → popped m cell 0 = m 0 - 1) ∧
      ∀ i, i ∉ [0, 13, 14, cell] → popped m cell i = m i := by
  obtain ⟨place, hplace⟩ := exists_place? s hsegment
  have hnamed : segment = .static → s.file ≠ [] := by
    intro hstatic hempty
    have hsymbol := hfile hstatic
    rw [hempty] at hsymbol
    exact Bool.noConfusion hsymbol
  have hresolve := resolve_of_place? hplace hindex hconstant hnamed
  have hresolves := resolve_eq_ok hresolve
  refine ⟨⟨_, by rw [Scope.push, hresolve], performs_push hresolves hfile⟩, fun hne => ?_, popped_spec⟩
  have haddressed := mt (mem_all_of_place? hplace).2.mpr hne
  refine ⟨Block.pop place index, ?_, performs_pop hresolves haddressed hfile⟩
  cases place with
  | immediate => exact absurd rfl haddressed
  | _ => rw [Scope.pop, hresolve]

/-- The entry is cell 14, in which the block keeps the address of the entry. Memory ends at the top of the stack. -/
theorem push_pop_blocks_perform_scratch :
    let block := Block.pop (.indirect "THAT") 10
    let text := Block.text (Block.number 7 :: block)
    let ram := (((Memory.blank 17).write 0 17).write 4 4).write 16 7
    Segment.that ∈ Segment.all ∧ Scope.pop {} .that 10 = .ok (block, {}) ∧ StandsAt text 1 block ∧
      ∃ rom, Assembly.assemble [] (Source.ofBytes text) = .ok rom ∧
        let machine : Computer := { rom, ram, pc := 1 }
        ∃ machine', machine.Reaches machine' ∧ machine'.pc = 20 ∧ machine'.ram.read 0 = 16 ∧ machine'.ram.read 13 = 7 ∧
          machine'.ram.read 14 = 7 := by
  intro block text ram
  have hstands : StandsAt text 1 block :=
    ⟨Block.text [Block.number 7], [], by decide +kernel, by decide +kernel, by decide +kernel⟩
  obtain ⟨rom, hassemble, -⟩ : ∃ rom, Assembly.assemble [] (Source.ofBytes text) = .ok rom ∧
      rom.size = size (Block.number 7 :: block) :=
    assemble_text [] (by decide +kernel) (by decide +kernel) (by decide +kernel) (by decide +kernel)
  have hread : ReadAs (Bytes.codes (text.splitOn 10)) (Block.number 7 :: block) := by
    unfold ReadAs
    decide +kernel
  have hsymbols : ∀ symbol, Block.symbol symbol ∈ block → symbolValue (Block.number 7 :: block) symbol < Memory.maxSize := by
    intro symbol hsymbol
    simp only [block, Block.pop, Block.address, Block.register, Block.symbol, Block.number, Block.setA, Block.setD, Block.setM,
      List.cons_append, List.nil_append, List.mem_cons, Statement.load.injEq, Assembly.Operand.symbol.injEq, reduceCtorEq,
      List.not_mem_nil, false_or, or_false] at hsymbol
    rcases hsymbol with rfl | rfl | rfl | rfl | rfl | rfl | rfl <;> decide
  have hroom : ∀ i ∈ popCells .that [] 10 (variablesOf (Block.number 7 :: block)) ram.read, i < ram.size := by decide +kernel
  have hleaves : popped ram.read 14 0 = 16 ∧ popped ram.read 14 13 = 7 ∧ popped ram.read 14 14 = 7 := by decide +kernel
  have hsegment : Segment.that ∈ Segment.all := by decide
  have hindex : 0 ≤ (10 : Int64).toInt := by decide
  refine ⟨hsegment, rfl, hstands, rom, hassemble, ?_⟩
  intro machine
  obtain ⟨-, hpop, -⟩ := push_pop_blocks_perform {} hsegment hindex (by simp) (by simp)
  obtain ⟨block', hblock, hperforms⟩ := hpop (by simp)
  obtain ⟨rfl, -⟩ := Prod.mk.inj (Except.ok.inj hblock)
  obtain ⟨m, machine', heffect, hreaches, hpc, -, rfl⟩ :=
    hperforms text [] rom _ 1 hassemble hread hstands hsymbols machine rfl rfl rfl hroom
  have hcells : machine'.ram.read = popped ram.read 14 := (Option.some.inj heffect).symm
  rw [← hcells] at hleaves
  exact ⟨machine', hreaches, hpc, hleaves⟩

end HackPlatform.Code
