import HackPlatform.Proofs.Assembly.Range
import HackPlatform.Proofs.Code.Layout

/-!
# Static variables of assembled programs

A static variable is a variable of the assembly, named after its file and its index. No label that the writer makes up has such
a name, but functions may: what they are called is up to the program. If the names are apart, every access to a static variable
loads the address of a cell of its own, which always fits, since at most every other instruction of generated code is a load. If a
function has the name of a static variable, the symbol is a label, and accesses load the address of the code of the function
(`statics_private_iff`).
-/

namespace HackPlatform.Code

open Assembly (Statement Installed isVariable labelNames size symbolValue variableNames)
open Stack (Command Program)

/-! ## Room for variables -/

/-- At most every other instruction of the block is a load. -/
def Block.Sparse (block : Block) : Prop := 2 * block.countP Statement.isLoad ≤ size block

theorem Block.Sparse.append {xs ys : Block} (hx : xs.Sparse) (hy : ys.Sparse) : Sparse (xs ++ ys) := by
  unfold Sparse at *
  rw [List.countP_append, Assembly.size_append]
  omega

theorem Block.sparse_function (name : Bytes) (locals : Nat) : (Block.function name locals).Sparse := by
  by_cases hlocals : locals = 0
  · simp [Sparse, function, hlocals, Statement.isLoad]
  · simp [Sparse, function, hlocals, Statement.isLoad, List.countP_cons, register, symbol, setA, setD, setM]

/-- The statements of a block are known up to the names and numbers in them, so its loads can be counted. -/
theorem Lowers.sparse {s s' : Scope} {c : Command} {block : Block} (h : Lowers s c block s') : block.Sparse := by
  cases h with
  | @push segment index place resolves => cases place <;> exact Nat.le_of_ble_eq_true rfl
  | @pop segment index place resolves addressed => cases place <;> exact Nat.le_of_ble_eq_true rfl
  | function named nonneg => exact Block.sparse_function _ _
  | _ => exact Nat.le_of_ble_eq_true rfl

theorem sparse_code {s : Scope} {ops : List Operation} (h : Lowerable s ops) : (code s ops).Sparse := by
  have hnil : Block.Sparse [] := Nat.le_refl 0
  induction ops generalizing s with
  | nil => exact hnil
  | cons op rest ih =>
    rw [code_cons]
    refine .append ?_ (ih h.tail)
    rcases Operation.lower_cases h.head with ⟨c, lead, block, -, hlowers, hblock, hlead⟩ | ⟨-, hblock, -⟩
    · rw [hblock]
      refine .append ?_ hlowers.sparse
      rcases hlead with rfl | rfl
      · exact hnil
      · exact Nat.le_of_ble_eq_true rfl
    · rw [hblock]
      exact hnil

/-! ## Accesses -/

/-- The static variable that a command uses: its file and its index. -/
def staticAt (p : Program) (k : Nat) : Option (Bytes × Nat) :=
  p[k]?.bind fun x => x.2.static?.map fun index => (x.1, index)

/-- The instruction of a command that loads the address of its static variable. -/
def staticLoad (bootstrap : Bool) (p : Program) (rom : Array Instruction) (k : Nat) : Option Instruction :=
  p[k]?.bind fun x => rom[(linkage bootstrap p).address k + loadOffset x.2]?

/-- Static variables live in cells of their own above the registers: their symbols are variables of the assembly and no labels,
every access loads such a cell, and two accesses load the same one exactly if they are to the same variable. -/
structure StaticsPrivate (bootstrap : Bool) (p : Program) (rom : Array Instruction) : Prop where
  isVariable : ∀ k x, staticAt p k = some x → isVariable (programCode bootstrap p) (staticSymbol x.1 x.2) = true
  loads : ∀ k x, staticAt p k = some x →
    ∃ w, staticLoad bootstrap p rom k = some w ∧ w.isLoad = true ∧ 16 ≤ w.value.toNat
  same_iff : ∀ j k x y, staticAt p j = some x → staticAt p k = some y →
    (staticLoad bootstrap p rom j = staticLoad bootstrap p rom k ↔ x = y)

variable {bootstrap : Bool} {p : Program} {rom : Array Instruction}

theorem mem_statics {x : Bytes × Nat} : x ∈ p.statics ↔ ∃ k, staticAt p k = some x := by
  simp only [Program.statics, List.mem_filterMap, staticAt, Option.bind_eq_some_iff]
  constructor
  · rintro ⟨y, hy, hx⟩
    obtain ⟨k, hk⟩ := List.mem_iff_getElem?.mp hy
    exact ⟨k, y, hk, hx⟩
  · rintro ⟨k, y, hk, hx⟩
    exact ⟨y, List.mem_of_getElem? hk, hx⟩

namespace Assembled

theorem staticLoad_eq (h : Assembled bootstrap p rom) {k : Nat} {x : Bytes × Nat} (hk : staticAt p k = some x) :
    staticLoad bootstrap p rom k = some ((linkage bootstrap p).static x.1 x.2).toUInt16 := by
  obtain ⟨⟨file, c⟩, hc, hx⟩ := Option.bind_eq_some_iff.mp hk
  obtain ⟨index, hindex, rfl⟩ := Option.map_eq_some_iff.mp hx
  obtain ⟨s, s', block, hlowers, rfl, -, hinstalled, -⟩ := h.block hc
  obtain ⟨before, after, rfl, hoffset⟩ := hlowers.block_static hindex
  rw [Assembly.installed_append, hoffset] at hinstalled
  rw [staticLoad, hc]
  exact hinstalled.2.1

theorem mem_labelNames_of_function (h : Assembled bootstrap p rom) {name : Bytes} (hname : name ∈ p.functions) :
    name ∈ labelNames (programCode bootstrap p) := by
  obtain ⟨k, file, locals, hk⟩ := Program.exists_of_mem_functions hname
  obtain ⟨s, s', block, hlowers, -, -, -, -, hin⟩ := h.block hk
  cases hlowers
  exact Assembly.mem_labelNames.mpr (hin _ List.mem_cons_self)

theorem variableAddress_lt (h : Assembled bootstrap p rom) {name : Bytes}
    (hname : name ∈ Assembly.usesIn (programCode bootstrap p) (programCode bootstrap p)) :
    Assembly.variableAddress (Assembly.usesIn (programCode bootstrap p) (programCode bootstrap p)) name <
      Memory.maxSize := by
  have hcard := Assembly.card_variableNames_le (programCode bootstrap p)
  have hsparse : 2 * (programCode bootstrap p).countP Statement.isLoad ≤ size (programCode bootstrap p) :=
    sparse_code h.lowerable
  have hfits : size (programCode bootstrap p) ≤ 32768 := h.fits
  -- at most 16384 of the 32768 instructions are loads, and each variable takes one
  refine (Assembly.variableAddress_lt_iff (by decide) _).mpr ?_ name hname
  show 16 + (variableNames (programCode bootstrap p)).card ≤ 32768
  omega

/-- An access to a static variable loads the address of its cell, if no function has the name of a static variable. -/
theorem loads_static (h : Assembled bootstrap p rom) (hfree : ∀ x ∈ p.statics, staticSymbol x.1 x.2 ∉ p.functions)
    {k : Nat} {x : Bytes × Nat} (hk : staticAt p k = some x) : ∃ w, staticLoad bootstrap p rom k = some w ∧
      w.isLoad = true ∧ w.value.toNat = (linkage bootstrap p).static x.1 x.2 := by
  obtain ⟨hmem, hvalue⟩ := h.static_eq hfree (mem_statics.mpr ⟨k, hk⟩)
  have hlt : (linkage bootstrap p).static x.1 x.2 < Memory.maxSize := by
    rw [hvalue]
    exact h.variableAddress_lt hmem
  have htoNat : ((linkage bootstrap p).static x.1 x.2).toUInt16.toNat = (linkage bootstrap p).static x.1 x.2 :=
    Nat.mod_eq_of_lt (Nat.lt_trans hlt (by decide))
  obtain ⟨hload, hself⟩ := Instruction.isLoad_of_lt (htoNat.symm ▸ hlt)
  exact ⟨_, h.staticLoad_eq hk, hload, by rw [hself, htoNat]⟩

theorem staticsPrivate (h : Assembled bootstrap p rom)
    (hfree : ∀ x ∈ p.statics, staticSymbol x.1 x.2 ∉ p.functions) : StaticsPrivate bootstrap p rom where
  isVariable k x hk := (Assembly.mem_usesIn.mp (h.static_eq hfree (mem_statics.mpr ⟨k, hk⟩)).1).2
  loads k x hk := by
    obtain ⟨w, hw, hload, hvalue⟩ := h.loads_static hfree hk
    exact ⟨w, hw, hload, hvalue ▸ (h.static_inj hfree (mem_statics.mpr ⟨k, hk⟩)).1⟩
  same_iff j k x y hj hk := by
    constructor
    · intro heq
      obtain ⟨v, hv, -, hx⟩ := h.loads_static hfree hj
      obtain ⟨w, hw, -, hy⟩ := h.loads_static hfree hk
      obtain rfl : v = w := Option.some.inj (hv.symm.trans (heq.trans hw))
      exact (h.static_inj hfree (mem_statics.mpr ⟨j, hj⟩)).2 y (mem_statics.mpr ⟨k, hk⟩) (hx.symm.trans hy)
    · rintro rfl
      rw [h.staticLoad_eq hj, h.staticLoad_eq hk]

theorem loads_function (h : Assembled bootstrap p rom) {j k : Nat} {x : Bytes × Nat} {file : Bytes} {locals : Int64}
    (hj : p[j]? = some (file, .function (staticSymbol x.1 x.2) locals)) (hk : staticAt p k = some x) :
    ∃ w, staticLoad bootstrap p rom k = some w ∧ w.toNat = (linkage bootstrap p).address j := by
  have hle : (linkage bootstrap p).address j ≤ 32768 := (size_take_le bootstrap p j).trans h.fits
  have hvalue : (linkage bootstrap p).static x.1 x.2 = (linkage bootstrap p).address j := h.function hj
  refine ⟨_, h.staticLoad_eq hk, ?_⟩
  rw [hvalue]
  exact Nat.mod_eq_of_lt (Nat.lt_of_le_of_lt hle (by decide))

end Assembled

/-- Static variables live in cells of their own exactly if no function has the name of a static variable that is used. An access
to a variable that shares its name with a function loads the address of the code of the function. -/
theorem statics_private_iff {files : List (Bytes × Bytes)} {text name : Bytes} (hbuild : build bootstrap files = .ok text)
    (hassemble : Assembly.assemble name (Source.ofBytes text) = .ok rom)
    (hfiles : ∀ file ∈ files, isIdentifier (unitName file.1) = true) :
    let p := programOf files
    (StaticsPrivate bootstrap p rom ↔ ∀ x ∈ p.statics, staticSymbol x.1 x.2 ∉ p.functions) ∧
      ∀ j k x file locals, p[j]? = some (file, .function (staticSymbol x.1 x.2) locals) → staticAt p k = some x →
        ∃ w, staticLoad bootstrap p rom k = some w ∧ w.toNat = (linkage bootstrap p).address j := by
  intro p
  have h : Assembled bootstrap p rom := assembled_of_build hbuild hassemble hfiles
  refine ⟨⟨?_, h.staticsPrivate⟩, fun j k x file locals hj hk => h.loads_function hj hk⟩
  intro hprivate x hx hfunction
  obtain ⟨k, hk⟩ := mem_statics.mp hx
  exact (Assembly.isVariable_iff.mp (hprivate.isVariable k x hk)).2 (h.mem_labelNames_of_function hfunction)

/-- Two files with a variable of the same index, one of which is pushed and popped. -/
theorem statics_private_iff_files :
    let files := [(ascii "A.vm", ascii "function A.f 0\npush static 0\npop static 1\npop static 0\n"),
      (ascii "B.vm", ascii "push static 0\n")]
    ∃ text rom, build false files = .ok text ∧ Assembly.assemble [] (Source.ofBytes text) = .ok rom ∧
      StaticsPrivate false (programOf files) rom := by
  intro files
  have hprogram : programOf files = [(ascii "A", .function (ascii "A.f") 0), (ascii "A", .push .static 0),
      (ascii "A", .pop .static 1), (ascii "A", .pop .static 0), (ascii "B", .push .static 0)] := by
    decide +kernel
  obtain ⟨text, rom, hbuild, hassemble⟩ := assemble_of_build false [] hprogram (by decide +kernel) (by decide +kernel)
    (by decide +kernel) (by decide +kernel) (by decide +kernel) (by decide +kernel) (by decide +kernel)
  obtain ⟨hiff, -⟩ := statics_private_iff hbuild hassemble (by decide +kernel)
  refine ⟨text, rom, hbuild, hassemble, hiff.mpr ?_⟩
  rw [hprogram]
  decide +kernel

/-- An access to the static variable 3 of a file that declares the function `Main.3` loads the address of this function, 0. -/
theorem static_access_loads_function :
    let files := [(ascii "Main.vm", ascii "function Main.3 0\npush static 3\n")]
    ∃ text rom, build false files = .ok text ∧ Assembly.assemble [] (Source.ofBytes text) = .ok rom ∧
      staticAt (programOf files) 1 = some (ascii "Main", 3) ∧ staticLoad false (programOf files) rom 1 = some 0 ∧
      ¬StaticsPrivate false (programOf files) rom := by
  intro files
  have hprogram : programOf files = [(ascii "Main", .function (ascii "Main.3") 0), (ascii "Main", .push .static 3)] := by
    decide +kernel
  obtain ⟨text, rom, hbuild, hassemble⟩ := assemble_of_build false [] hprogram (by decide +kernel) (by decide +kernel)
    (by decide +kernel) (by decide +kernel) (by decide +kernel) (by decide +kernel) (by decide +kernel)
  have hk : staticAt (programOf files) 1 = some (ascii "Main", 3) := by
    rw [hprogram]
    decide +kernel
  have hvalue : (linkage false (programOf files)).static (ascii "Main") 3 = 0 := by
    rw [hprogram]
    decide +kernel
  have hload : staticLoad false (programOf files) rom 1 = some 0 := by
    rw [(assembled_of_build hbuild hassemble (by decide +kernel)).staticLoad_eq hk, hvalue]
    rfl
  refine ⟨text, rom, hbuild, hassemble, hk, hload, fun hprivate => ?_⟩
  obtain ⟨w, hw, -, hlow⟩ := hprivate.loads 1 _ hk
  obtain rfl := Option.some.inj (hload.symm.trans hw)
  exact absurd hlow (by decide)

end HackPlatform.Code
