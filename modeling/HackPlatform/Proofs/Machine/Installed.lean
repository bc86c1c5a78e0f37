import Mathlib.Logic.Function.Basic
import Mathlib.Logic.Relation
import HackPlatform.Proofs.Assembly.Backpatch
import HackPlatform.Proofs.Machine.Meaning

/-!
# Running installed code

A `View` is what instructions work on: the two registers and the contents of memory. One step of the computer does to the view
what the instruction at the program counter means (`Shows.load`, `Shows.compute`). Where a block of statements is installed in
instruction memory, a run of the computer follows the statements: `exec` says what statements without jumps do, and `Moves`
collects what runs do to the program counter and to memory, whatever the registers hold.
-/

namespace HackPlatform

theorem Memory.read_write {m : Memory} {i : Nat} (h : i < m.size) (w : Word) (j : Nat) :
    (m.write i w).read j = Function.update m.read i w j := by
  obtain ⟨cells, size, hle⟩ := m
  have hlt : i < cells.size := Nat.lt_of_lt_of_le h hle
  by_cases hj : j = i
  · subst hj
    simp [write, read, hlt]
  · rw [Function.update_of_ne hj]
    simp [write, read, Array.getElem?_setIfInBounds_ne (Ne.symm hj)]

theorem Word.toNat_ofInt_eq_mod (n : Int) : (Word.ofInt n).toNat = (n % 65536).toNat := by
  simp [Word.ofInt, UInt16.ofInt, Int.emod_lt_of_pos]

theorem Word.toNat_ofInt {n : Int} (h : 0 ≤ n ∧ n ≤ Assembly.maxNumber) : (Word.ofInt n).toNat = n.toNat := by
  have hmax : (Assembly.maxNumber : Int) = 32767 := rfl
  rw [toNat_ofInt_eq_mod]
  omega

theorem Instruction.isLoad_iff (i : Instruction) : i.isLoad = true ↔ i.toNat < Memory.maxSize :=
  beq_iff_eq.trans (Word.and_sign_eq_zero_iff i)

theorem Instruction.isLoad_of_lt {i : Instruction} (h : i.toNat < Memory.maxSize) : i.isLoad = true ∧ i.value = i := by
  have hmod : i.toNat % 2 ^ 15 = i.toNat := Nat.mod_eq_of_lt h
  refine ⟨(isLoad_iff i).mpr h, ?_⟩
  rw [← UInt16.toNat_inj, value, UInt16.toNat_and]
  show i.toNat &&& (2 ^ 15 - 1) = i.toNat
  rw [Nat.and_two_pow_sub_one_eq_mod, hmod]

namespace Computer

/-- What instructions work on. -/
structure View where
  a : Word
  d : Word
  cells : Cells

/-- Some steps, none of which fails, lead from one state to another. -/
def Reaches : Computer → Computer → Prop := Relation.ReflTransGen fun c c' => c.step = .done c'

/-- The computer is about to execute the instruction of `rom` at `pc`, has `room` cells of memory and no keyboard, and its
registers and its memory are those of the view. -/
structure Shows (rom : Array Instruction) (room pc : Nat) (v : View) (c : Computer) : Prop where
  rom : c.rom = rom
  pc : c.pc = pc
  size : c.ram.size = room
  keyboard : c.keyboard = none
  a : c.a = v.a
  d : c.d = v.d
  cells : c.ram.read = v.cells

variable {rom : Array Instruction} {room pc : Nat} {v : View} {c : Computer}

theorem Shows.fetch? {w : Instruction} (h : c.Shows rom room pc v) (hw : rom[pc]? = some w) : c.fetch? = some w := by
  rw [Computer.fetch?, h.pc, ← hw, ← h.rom]

theorem step_of_fetch? {w : Instruction} (hfetch : c.fetch? = some w) (hlt : w.toNat < Memory.maxSize) :
    c.step = .done { c with a := w, pc := c.pc + 1 } := by
  obtain ⟨hload, hvalue⟩ := Instruction.isLoad_of_lt hlt
  rw [step, hfetch]
  simp only [hload, hvalue, if_true]

theorem Shows.load {w : Instruction} (h : c.Shows rom room pc v) (hw : rom[pc]? = some w) (hlt : w.toNat < Memory.maxSize) :
    ∃ c', c.step = .done c' ∧ c'.Shows rom room (pc + 1) { v with a := w } := by
  refine ⟨_, step_of_fetch? (h.fetch? hw) hlt, ?_⟩
  exact ⟨h.rom, by simp [h.pc], h.size, h.keyboard, rfl, h.d, h.cells⟩

theorem poll_of_none (hkeyboard : c.keyboard = none) (addr : Nat) : c.poll addr = .done c := by
  rw [poll, hkeyboard]
  split <;> rfl

end Computer

namespace Assembly

open Computer (View Shows Reaches)

def Dest.store (dest : Dest) (w : Word) (v : View) : View where
  a := if dest.a then w else v.a
  d := if dest.d then w else v.d
  cells := if dest.m then Function.update v.cells v.a.toNat w else v.cells

def Comp.result (comp : Comp) (v : View) : Word := comp.value v.d v.a (v.cells v.a.toNat)

namespace Comp

@[simp] theorem result_zero (v : View) : zero.result v = 0 := rfl

@[simp] theorem result_minusOne (v : View) : minusOne.result v = -1 := rfl

@[simp] theorem result_d (v : View) : Comp.d.result v = v.d := rfl

@[simp] theorem result_a (v : View) : Comp.a.result v = v.a := rfl

@[simp] theorem result_m (v : View) : Comp.m.result v = v.cells v.a.toNat := rfl

@[simp] theorem result_incA (v : View) : incA.result v = v.a + 1 := rfl

@[simp] theorem result_incM (v : View) : incM.result v = v.cells v.a.toNat + 1 := rfl

@[simp] theorem result_decA (v : View) : decA.result v = v.a - 1 := rfl

@[simp] theorem result_decM (v : View) : decM.result v = v.cells v.a.toNat - 1 := rfl

@[simp] theorem result_dPlusM (v : View) : dPlusM.result v = v.d + v.cells v.a.toNat := rfl

@[simp] theorem result_dMinusA (v : View) : dMinusA.result v = v.d - v.a := rfl

@[simp] theorem result_mMinusD (v : View) : mMinusD.result v = v.cells v.a.toNat - v.d := rfl

end Comp

variable {rom : Array Instruction} {room pc : Nat} {v : View} {c : Computer}

theorem shows_finish {dest : Dest} {comp : Comp} {jump : Jump} (h : c.Shows rom room pc v)
    (hstores : dest.m = true → v.a.toNat < room) (w : Word) :
    (c.finish (encode dest comp jump) w).Shows rom room (if jump.holds w then v.a.toNat else pc + 1) (dest.store w v) := by
  obtain ⟨hrom, hpc, hsize, hkeyboard, ha, hd, hcells⟩ := h
  rw [finish_encode]
  refine ⟨hrom, ?_, ?_, hkeyboard, ?_, ?_, ?_⟩
  · simp only [ha, hpc]
    split <;> simp
  · simp only
    split
    · exact hsize
    · exact hsize
  · simp only [ha, Dest.store]
  · simp only [hd, Dest.store]
  · simp only [ha, Dest.store]
    cases hm : dest.m with
    | false => exact hcells
    | true =>
      have hlt : v.a.toNat < c.ram.size := by rw [hsize]; exact hstores hm
      rw [if_pos rfl, if_pos rfl, ← hcells]
      exact funext (Memory.read_write hlt w)

theorem execute_shows {dest : Dest} {comp : Comp} {jump : Jump} (h : c.Shows rom room pc v)
    (hstores : dest.m = true → v.a.toNat < room) (operand : Word)
    (hresult : Alu.output v.d operand comp.bits = comp.result v) :
    ∃ c', c.execute (encode dest comp jump) operand = .done c' ∧
      c'.Shows rom room (if jump.holds (comp.result v) then v.a.toNat else pc + 1) (dest.store (comp.result v) v) := by
  refine ⟨_, execute_encode (fun hm => ?_) comp jump operand, ?_⟩
  · rw [h.a, h.size]
    exact hstores hm
  · rw [h.d, hresult]
    exact shows_finish h hstores _

theorem step_encode {dest : Dest} {comp : Comp} {jump : Jump} (h : c.Shows rom room pc v)
    (hw : rom[pc]? = some (encode dest comp jump))
    (hguard : (comp.readsM || dest.m) = true → v.a.toNat < room) :
    ∃ c', c.step = .done c' ∧
      c'.Shows rom room (if jump.holds (comp.result v) then v.a.toNat else pc + 1) (dest.store (comp.result v) v) := by
  obtain ⟨hload, -⟩ := fields_encode dest comp jump
  have hstores : dest.m = true → v.a.toNat < room := fun hm => hguard (by simp [hm])
  have hvalue := comp.output_bits v.d v.a (v.cells v.a.toNat)
  rw [Computer.step, h.fetch? hw]
  simp only [hload, Bool.false_eq_true, if_false, Computer.compute, readsMemory_encode]
  cases hreads : comp.readsM with
  | true =>
    have haddr : v.a.toNat < room := hguard (by simp [hreads])
    have hlt : c.a.toNat < c.ram.size := by rw [h.a, h.size]; exact haddr
    rw [hreads, if_pos rfl] at hvalue
    simp only [if_true, if_pos hlt, Computer.poll_of_none h.keyboard]
    rw [h.a, h.cells]
    exact execute_shows h hstores _ hvalue
  | false =>
    rw [hreads, if_neg (by simp)] at hvalue
    simp only [Bool.false_eq_true, if_false]
    rw [h.a]
    exact execute_shows h hstores _ hvalue

/-! ## Blocks -/

def Operand.word (value : Bytes → Nat) : Operand → Word
  | number n => Word.ofInt n
  | symbol name => (value name).toUInt16

/-- The instructions of a block stand in instruction memory from `pc` on, and its labels are worth the addresses where they
stand. -/
def Installed (rom : Array Instruction) (value : Bytes → Nat) : Nat → List Statement → Prop
  | _, [] => True
  | pc, .label name :: rest => value name = pc ∧ Installed rom value pc rest
  | pc, .load operand :: rest => rom[pc]? = some (operand.word value) ∧ Installed rom value (pc + 1) rest
  | pc, .compute dest comp jump :: rest => rom[pc]? = some (encode dest comp jump) ∧ Installed rom value (pc + 1) rest

/-- What statements do to a view where there are `room` cells of memory, if none of them jumps, loads a number that no load
instruction holds, or goes outside of memory. -/
def exec (value : Bytes → Nat) (room : Nat) : List Statement → View → Option View
  | [], v => some v
  | .label _ :: rest, v => exec value room rest v
  | .load operand :: rest, v =>
    if (operand.word value).toNat < Memory.maxSize then exec value room rest { v with a := operand.word value } else none
  | .compute dest comp .never :: rest, v =>
    if (comp.readsM || dest.m) = true → v.a.toNat < room then exec value room rest (dest.store (comp.result v) v)
    else none
  | .compute _ _ _ :: _, _ => none

variable {value : Bytes → Nat} {block : List Statement} {v' : View}

@[simp] theorem size_label (name : Bytes) (rest : List Statement) : size (.label name :: rest) = size rest :=
  List.countP_cons_of_neg Bool.false_ne_true

@[simp] theorem size_load (operand : Operand) (rest : List Statement) : size (.load operand :: rest) = size rest + 1 :=
  List.countP_cons_of_pos rfl

@[simp] theorem size_compute (dest : Dest) (comp : Comp) (jump : Jump) (rest : List Statement) :
    size (.compute dest comp jump :: rest) = size rest + 1 := List.countP_cons_of_pos rfl

theorem installed_append (xs ys : List Statement) :
    Installed rom value pc (xs ++ ys) ↔ Installed rom value pc xs ∧ Installed rom value (pc + size xs) ys := by
  induction xs generalizing pc with
  | nil => simp [Installed]
  | cons st rest ih =>
    cases st with
    | label name => simp [Installed, ih, and_assoc]
    | load operand => simp [Installed, ih, and_assoc, Nat.add_assoc, Nat.add_comm 1]
    | compute dest comp jump => simp [Installed, ih, and_assoc, Nat.add_assoc, Nat.add_comm 1]

theorem exec_append (xs ys : List Statement) (v : View) :
    exec value room (xs ++ ys) v = (exec value room xs v).bind (exec value room ys) := by
  fun_induction exec value room xs v with
  | case1 v => rfl
  | _ => simp_all [exec]

/-- The computer runs through an installed block without jumps. -/
theorem reaches_exec (hinstalled : Installed rom value pc block) (hexec : exec value room block v = some v')
    (h : c.Shows rom room pc v) : ∃ c', c.Reaches c' ∧ c'.Shows rom room (pc + size block) v' := by
  induction block generalizing pc v c with
  | nil =>
    obtain rfl := Option.some.inj hexec
    exact ⟨c, .refl, h⟩
  | cons st rest ih =>
    -- one step for an instruction, and the induction hypothesis for the rest
    have hthen : ∀ {c₁ v₁}, c.step = .done c₁ → c₁.Shows rom room (pc + 1) v₁ → Installed rom value (pc + 1) rest →
        exec value room rest v₁ = some v' → ∃ c', c.Reaches c' ∧ c'.Shows rom room (pc + (size rest + 1)) v' := by
      intro c₁ v₁ hstep hshows hrest hnext
      obtain ⟨c', hreaches, hc'⟩ := ih hrest hnext hshows
      rw [Nat.add_assoc, Nat.add_comm 1] at hc'
      exact ⟨c', .head hstep hreaches, hc'⟩
    cases st with
    | label name =>
      rw [size_label]
      exact ih hinstalled.2 hexec h
    | load operand =>
      rw [size_load]
      rw [exec] at hexec
      split at hexec
      · rename_i hlt
        obtain ⟨c₁, hstep, hshows⟩ := h.load hinstalled.1 hlt
        exact hthen hstep hshows hinstalled.2 hexec
      · exact absurd hexec (by simp)
    | compute dest comp jump =>
      cases jump with
      | never =>
        rw [size_compute]
        rw [exec] at hexec
        split at hexec
        · rename_i hguard
          obtain ⟨c₁, hstep, hshows⟩ := step_encode h hinstalled.1 hguard
          exact hthen hstep hshows hinstalled.2 hexec
        · exact absurd hexec (by simp)
      | _ => exact absurd hexec (by simp [exec])

/-! ## Assembled programs -/

theorem symbolValue_label {before after : List Statement} {name : Bytes}
    (hnodup : (labelNames (before ++ .label name :: after)).Nodup) (hfree : predefined? name = none) :
    symbolValue (before ++ .label name :: after) name = size before := by
  have hmem : name ∈ labelNames (before ++ .label name :: after) := mem_labelNames.mpr (by simp)
  have hbefore : name ∉ labelNames before := by
    intro hname
    rw [labelNames_append] at hnodup
    exact (List.nodup_append'.mp hnodup).2.2 hname (mem_labelNames.mpr List.mem_cons_self)
  rw [symbolValue_of_label hfree hmem, labelAddress_append_cons hbefore]

theorem installed_of_words {program before after : List Statement}
    (hwords : rom.toList = words (symbolValue program) program) (hnodup : (labelNames program).Nodup)
    (hfree : ∀ name ∈ labelNames program, predefined? name = none) (hprogram : program = before ++ block ++ after) :
    Installed rom (symbolValue program) (size before) block := by
  induction block generalizing before with
  | nil => trivial
  | cons st rest ih =>
    have hrest : Installed rom (symbolValue program) (size (before ++ [st])) rest := ih (by simp [hprogram])
    -- an instruction is the word behind those of the statements before it
    have hword : ∀ w, st.word? (symbolValue program) = some w → rom[size before]? = some w := by
      intro w hw
      have hsplit : rom.toList = words (symbolValue program) before ++ w :: words (symbolValue program) (rest ++ after) := by
        calc rom.toList = words (symbolValue program) (before ++ st :: rest ++ after) := hwords.trans (congrArg _ hprogram)
          _ = _ := by simp [words, hw]
      rw [← Array.getElem?_toList, hsplit, List.getElem?_append_right (by rw [length_words]), length_words]
      simp
    cases st with
    | label name =>
      have hsplit : program = before ++ .label name :: (rest ++ after) := by simp [hprogram]
      have hname : predefined? name = none := hfree name (mem_labelNames.mpr (by simp [hsplit]))
      refine ⟨?_, by simpa using hrest⟩
      rw [hsplit] at hnodup ⊢
      exact symbolValue_label hnodup hname
    | load operand =>
      refine ⟨hword _ ?_, by simpa using hrest⟩
      cases operand <;> rfl
    | compute dest comp jump => exact ⟨hword _ rfl, by simpa using hrest⟩

/-! ## Moves -/

/-- The computer gets from one program counter and contents of memory to another, whatever its registers hold. -/
def Moves (rom : Array Instruction) (room pc : Nat) (m : Cells) (pc' : Nat) (m' : Cells) : Prop :=
  ∀ (c : Computer) (a d : Word), c.Shows rom room pc ⟨a, d, m⟩ →
    ∃ c' a' d', c.Reaches c' ∧ c'.Shows rom room pc' ⟨a', d', m'⟩

namespace Moves

variable {m m' m'' : Cells} {pc' pc'' : Nat}

theorem refl : Moves rom room pc m pc m := fun c a d h => ⟨c, a, d, .refl, h⟩

theorem trans (h : Moves rom room pc m pc' m') (h' : Moves rom room pc' m' pc'' m'') : Moves rom room pc m pc'' m'' := by
  intro c a d hc
  obtain ⟨c', a', d', hreaches, hc'⟩ := h c a d hc
  obtain ⟨c'', a'', d'', hreaches', hc''⟩ := h' c' a' d' hc'
  exact ⟨c'', a'', d'', hreaches.trans hreaches', hc''⟩

theorem straight (hinstalled : Installed rom value pc block)
    (hexec : ∀ a d, ∃ a' d', exec value room block ⟨a, d, m⟩ = some ⟨a', d', m'⟩) :
    Moves rom room pc m (pc + size block) m' := by
  intro c a d hc
  obtain ⟨a', d', hv⟩ := hexec a d
  obtain ⟨c', hreaches, hc'⟩ := reaches_exec hinstalled hv hc
  exact ⟨c', a', d', hreaches, hc'⟩

theorem jump {comp : Comp} {jump : Jump} (hinstalled : Installed rom value pc (block ++ [.compute {} comp jump]))
    (hcomp : comp.readsM = false)
    (hexec : ∀ a d, ∃ v, exec value room block ⟨a, d, m⟩ = some v ∧ v.cells = m' ∧
      pc' = if jump.holds (comp.result v) then v.a.toNat else pc + size (block ++ [.compute {} comp jump])) :
    Moves rom room pc m pc' m' := by
  intro c a d hc
  obtain ⟨hblock, hlast⟩ := (installed_append _ _).mp hinstalled
  obtain ⟨v, hv, rfl, rfl⟩ := hexec a d
  obtain ⟨c₁, hreaches, hc₁⟩ := reaches_exec hblock hv hc
  obtain ⟨c₂, hstep, hc₂⟩ := step_encode hc₁ hlast.1 (by simp [hcomp])
  rw [size_append, size_compute, size_nil, Nat.zero_add, ← Nat.add_assoc]
  exact ⟨c₂, v.a, v.d, hreaches.tail hstep, hc₂⟩

end Moves

end Assembly

end HackPlatform
