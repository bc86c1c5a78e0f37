import HackPlatform.Code.Block
import HackPlatform.Proofs.Machine.Installed
import HackPlatform.Proofs.Stack.Semantics

/-!
# What blocks do

Where the block of a command is installed, the computer does what the command means, if the cells that the block uses are in
memory and none of the registers: one lemma a kind of block, all but the comparisons. The statements of a block are executed by
simplification (`exec_setA` and its like); the loops that a block writes out, over local variables and over the registers of a
frame, take an induction (`exec_zeros`, `exec_saves`, `exec_restores`).
-/

namespace HackPlatform.Code

open Assembly
open Function (update)
open Stack (sp lcl arg Agree)
open Computer (View)

variable {rom : Array Instruction} {value : Bytes → Nat} {program : List Statement} {room pc : Nat} {m : Cells}

/-! ## Statements -/

section

variable {comp : Comp} {v : View}

theorem lt_maxSize {n : Nat} (h : n < 16) : n < Memory.maxSize := Nat.lt_trans h (by decide)

@[simp] theorem lt_room {n : Nat} (h : n < 16) (hroom : 16 ≤ room) : n < room := Nat.lt_of_lt_of_le h hroom

@[simp] theorem readsM_dMinusA : Comp.dMinusA.readsM = false := by decide

@[simp] theorem readsM_a : Comp.a.readsM = false := by decide

@[simp] theorem exec_nil (v : View) : exec value room [] v = some v := rfl

@[simp] theorem exec_setA (rest : List Statement) (h : v.a.toNat < room) :
    exec value room (Block.setA comp :: rest) v = exec value room rest { v with a := comp.result v } := by
  rw [Block.setA, exec, if_pos fun _ => h]
  rfl

@[simp] theorem exec_setD (rest : List Statement) (h : v.a.toNat < room) :
    exec value room (Block.setD comp :: rest) v = exec value room rest { v with d := comp.result v } := by
  rw [Block.setD, exec, if_pos fun _ => h]
  rfl

@[simp] theorem exec_setD_of_register (rest : List Statement) (h : comp.readsM = false) :
    exec value room (Block.setD comp :: rest) v = exec value room rest { v with d := comp.result v } := by
  rw [Block.setD, exec, if_pos (by simp [h])]
  rfl

@[simp] theorem exec_setM (rest : List Statement) (h : v.a.toNat < room) : exec value room (Block.setM comp :: rest) v =
    exec value room rest { v with cells := update v.cells v.a.toNat (comp.result v) } := by
  rw [Block.setM, exec, if_pos fun _ => h]
  rfl

@[simp] theorem exec_setAM (rest : List Statement) (h : v.a.toNat < room) : exec value room (Block.setAM comp :: rest) v =
    exec value room rest { v with a := comp.result v, cells := update v.cells v.a.toNat (comp.result v) } := by
  rw [Block.setAM, exec, if_pos fun _ => h]
  rfl

theorem toNat_toUInt16 {n : Nat} (h : n < Memory.maxSize) : n.toUInt16.toNat = n :=
  Nat.mod_eq_of_lt (Nat.lt_trans h (by decide))

theorem exec_symbol {name : Bytes} (rest : List Statement) (h : value name < Memory.maxSize) :
    exec value room (Block.symbol name :: rest) v = exec value room rest { v with a := (value name).toUInt16 } := by
  rw [Block.symbol, exec, Operand.word, toNat_toUInt16 h, if_pos h]

theorem symbolValue_pointers : symbolValue program (ascii "LCL") = 1 ∧ symbolValue program (ascii "ARG") = 2 ∧
    symbolValue program (ascii "THIS") = 3 ∧ symbolValue program (ascii "THAT") = 4 := ⟨rfl, rfl, rfl, rfl⟩

theorem exec_register {name : String} (rest : List Statement) (h : value (ascii name) < Memory.maxSize) :
    exec value room (Block.register name :: rest) v = exec value room rest { v with a := (value (ascii name)).toUInt16 } :=
  exec_symbol rest h

/-- Naming a register puts its address into A. -/
abbrev Loads (program : List Statement) (room : Nat) (name : String) (n : Word) : Prop :=
  ∀ (rest : List Statement) (v : View),
    exec (symbolValue program) room (Block.register name :: rest) v = exec (symbolValue program) room rest { v with a := n }

@[simp] theorem exec_registers : Loads program room "SP" 0 ∧ Loads program room "LCL" 1 ∧ Loads program room "ARG" 2 ∧
    Loads program room "R13" 13 ∧ Loads program room "R14" 14 := by
  have hloads : ∀ name n, symbolValue program (ascii name) = n → n < 16 → Loads program room name n.toUInt16 := by
    rintro name n rfl hlt rest v
    exact exec_register rest (lt_maxSize hlt)
  exact ⟨hloads _ 0 rfl (by decide), hloads _ 1 rfl (by decide), hloads _ 2 rfl (by decide), hloads _ 13 rfl (by decide),
    hloads _ 14 rfl (by decide)⟩

end

/-! ## The stack -/

theorem toNat_sub_one {w : Word} (h : 1 ≤ w.toNat) : (w - 1).toNat = w.toNat - 1 :=
  UInt16.toNat_sub_of_le _ _ h

theorem toNat_below (hsp : 1 ≤ sp m) : (m 0 - 1).toNat = sp m - 1 := toNat_sub_one hsp

theorem moves_binary {comp : Comp} {f : Word → Word → Word} (hcomp : ∀ v, comp.result v = f (v.cells v.a.toNat) v.d)
    (hinstalled : Installed rom (symbolValue program) pc (Block.binary comp))
    (hlower : 3 ≤ sp m) (hupper : sp m ≤ room) :
    Moves rom room pc m (pc + size (Block.binary comp))
      (update (update m (sp m - 2) (f (m (sp m - 2)) (m (sp m - 1)))) 0 (m 0 - 1)) := by
  have h1 : (m 0 - 1).toNat = sp m - 1 := toNat_below (by omega)
  have h2 : (m 0 - 1 - 1).toNat = sp m - 2 := by rw [toNat_sub_one (by omega), h1]; rfl
  have hne : (0 : Nat) ≠ sp m - 2 := by omega
  have hlt : 0 < room ∧ sp m - 1 < room ∧ sp m - 2 < room := by omega
  exact .straight hinstalled fun a d => by simp [Block.binary, hcomp, h1, h2, hlt, hne]

theorem moves_unary {comp : Comp} {f : Word → Word} (hcomp : ∀ v, comp.result v = f (v.cells v.a.toNat))
    (hinstalled : Installed rom (symbolValue program) pc (Block.unary comp))
    (hlower : 1 ≤ sp m) (hupper : sp m ≤ room) :
    Moves rom room pc m (pc + size (Block.unary comp)) (update m (sp m - 1) (f (m (sp m - 1)))) := by
  have h1 : (m 0 - 1).toNat = sp m - 1 := toNat_below hlower
  have hlt : 0 < room ∧ sp m - 1 < room := by omega
  exact .straight hinstalled fun a d => by simp [Block.unary, hcomp, h1, hlt]

/-- What a push leaves: the word goes where the stack pointer points, and then the stack pointer goes up, whatever it is by then. -/
def pushed (m : Cells) (w : Word) : Cells :=
  let m' := update m (sp m) w
  update m' 0 (m' 0 + 1)

theorem pushed_eq (w : Word) (h : 0 < sp m) : pushed m w = Stack.push m w := by
  rw [pushed, Stack.push, Function.update_of_ne (Nat.ne_of_lt h)]

theorem exec_pushD_of_room (a d : Word) (hzero : 0 < room) (hupper : sp m < room) :
    exec (symbolValue program) room Block.pushD ⟨a, d, m⟩ = some ⟨0, d, pushed m d⟩ := by
  have h0 : (m 0).toNat = sp m := rfl
  simp [Block.pushD, h0, hupper, hzero, pushed]

theorem exec_pushD (a d : Word) (hlower : 16 ≤ sp m) (hupper : sp m < room) :
    exec (symbolValue program) room Block.pushD ⟨a, d, m⟩ = some ⟨0, d, Stack.push m d⟩ := by
  rw [exec_pushD_of_room a d (by omega) hupper, pushed_eq d (by omega)]

/-! ## Segments -/

theorem toNat_ofInt_lt {n : Int} (h : 0 ≤ n ∧ n ≤ maxNumber) : (Word.ofInt n).toNat < Memory.maxSize := by
  have hmax : (maxNumber : Int) = 32767 := rfl
  have hsize : Memory.maxSize = 32768 := rfl
  rw [Word.toNat_ofInt h]
  omega

@[simp] theorem exec_number {n : Int} {v : View} (rest : List Statement) (h : 0 ≤ n ∧ n ≤ maxNumber) :
    exec value room (Block.number n :: rest) v = exec value room rest { v with a := Word.ofInt n } := by
  rw [Block.number, exec, Operand.word, if_pos (toNat_ofInt_lt h)]

theorem moves_constant {index : Int64} (hinstalled : Installed rom (symbolValue program) pc (Block.push .immediate index))
    (hindex : 0 ≤ index.toInt ∧ index.toInt ≤ maxNumber) (hzero : 0 < room) (hupper : sp m < room) :
    Moves rom room pc m (pc + size (Block.push .immediate index)) (pushed m (Word.ofInt index.toInt)) :=
  .straight hinstalled fun a d => by simp [Block.push, hindex, exec_pushD_of_room _ _ hzero hupper]

/-- The statements that load the address of an entry leave it in A, and nothing else in memory. -/
def Addresses (program : List Statement) (room : Nat) (m : Cells) (place : Block.Place) (index : Int64) (cell : Nat) : Prop :=
  ∀ a d, ∃ a' d', exec (symbolValue program) room (Block.address place index) ⟨a, d, m⟩ = some ⟨a', d', m⟩ ∧ a'.toNat = cell

theorem addresses_direct {base index : Int64} (h : 0 ≤ (base + index).toInt ∧ (base + index).toInt ≤ maxNumber) :
    Addresses program room m (.direct base) index (base + index).toInt.toNat := by
  intro a d
  refine ⟨Word.ofInt (base + index).toInt, d, ?_, Word.toNat_ofInt h⟩
  rw [Block.address, exec_number [] h, exec_nil]

theorem addresses_indirect {name : String} {register : Nat} {index : Int64}
    (hname : symbolValue program (ascii name) = register) (hregister : register < 16) (hroom : register < room)
    (h : 0 ≤ index.toInt ∧ index.toInt ≤ maxNumber) :
    Addresses program room m (.indirect name) index (m register + Word.ofInt index.toInt).toNat := by
  have hlt : register < Memory.maxSize := lt_maxSize hregister
  intro a d
  refine ⟨m register + Word.ofInt index.toInt, Word.ofInt index.toInt, ?_, rfl⟩
  rw [Block.address, exec_number _ h]
  simp [exec_register, hname, toNat_toUInt16 hlt, hlt, hroom, UInt16.add_comm]

theorem addresses_named {file : Bytes} {index : Int64}
    (h : symbolValue program (file ++ [46] ++ Numeral.ofInt index.toInt) < Memory.maxSize) :
    Addresses program room m (.named file) index (symbolValue program (file ++ [46] ++ Numeral.ofInt index.toInt)) := by
  intro a d
  refine ⟨_, d, ?_, toNat_toUInt16 h⟩
  rw [Block.address, exec_symbol [] h, exec_nil]

theorem moves_push {place : Block.Place} {index : Int64} {cell : Nat} (hplace : place ≠ .immediate)
    (hinstalled : Installed rom (symbolValue program) pc (Block.push place index))
    (haddress : Addresses program room m place index cell) (hcell : cell < room) (hzero : 0 < room) (hupper : sp m < room) :
    Moves rom room pc m (pc + size (Block.push place index)) (pushed m (m cell)) := by
  have hblock : Block.push place index = Block.address place index ++ [Block.setD .m] ++ Block.pushD := by
    cases place with
    | immediate => exact absurd rfl hplace
    | _ => rfl
  refine .straight hinstalled fun a d => ?_
  obtain ⟨a', d', hexec, rfl⟩ := haddress a d
  simp [hblock, exec_append, hexec, hcell, exec_pushD_of_room _ _ hzero hupper]

/-- What a pop leaves, in the order of its stores: the value in cell 13, the stack pointer one lower, the address of the entry in
cell 14, and the value in the entry. -/
def popped (m : Cells) (cell : Nat) : Cells :=
  let w := m (m 0 - 1).toNat
  update (update (update (update m 13 w) 0 (m 0 - 1)) 14 cell.toUInt16) cell w

theorem moves_pop {place : Block.Place} {index : Int64} {cell : Nat}
    (hinstalled : Installed rom (symbolValue program) pc (Block.pop place index))
    (haddress : Addresses program room (update (update m 13 (m (m 0 - 1).toNat)) 0 (m 0 - 1)) place index cell)
    (hcell : cell < room) (hscratch : 14 < room) (htop : (m 0 - 1).toNat < room) :
    Moves rom room pc m (pc + size (Block.pop place index)) (popped m cell) := by
  refine .straight hinstalled fun a d => ?_
  obtain ⟨a', d', hexec, hcell'⟩ := haddress 0 (m (m 0 - 1).toNat)
  have ha' : a' = cell.toUInt16 := by
    rw [← UInt16.toNat_inj, ← hcell']
    exact (Nat.mod_eq_of_lt a'.toNat_lt).symm
  have hroom : 0 < room ∧ 13 < room := by omega
  subst ha'
  simp [Block.pop, popped, exec_append, htop, hroom, hscratch, hexec, hcell', hcell]

/-! ## Branches -/

theorem moves_goto {name : Bytes} (hinstalled : Installed rom (symbolValue program) pc (Block.goto name))
    (hname : symbolValue program name < Memory.maxSize) : Moves rom room pc m (symbolValue program name) m := by
  have hblock : Block.goto name = [Block.symbol name] ++ [Block.jumpAlways] := rfl
  rw [hblock] at hinstalled
  refine .jump hinstalled rfl fun a d => ⟨_, exec_symbol [] hname, rfl, ?_⟩
  simp [Jump.holds, toNat_toUInt16 hname]

theorem moves_ifGoto {name : Bytes} (hinstalled : Installed rom (symbolValue program) pc (Block.ifGoto name))
    (hname : symbolValue program name < Memory.maxSize) (hlower : 16 ≤ sp m - 1) (hupper : sp m - 1 < room) :
    Moves rom room pc m
      (if m (sp m - 1) = 0 then pc + size (Block.ifGoto name) else symbolValue program name) (update m 0 (m 0 - 1)) := by
  have h1 : (m 0 - 1).toNat = sp m - 1 := toNat_below (by omega)
  have hne : sp m - 1 ≠ 0 := by omega
  have hroom : 16 ≤ room := by omega
  have hblock : Block.ifGoto name =
      [Block.register "SP", Block.setAM .decM, Block.setD .m, Block.symbol name] ++ [Block.jumpIf .d .ne] := rfl
  rw [hblock] at hinstalled ⊢
  refine .jump hinstalled rfl
    fun a d => ⟨⟨(symbolValue program name).toUInt16, m (sp m - 1), update m 0 (m 0 - 1)⟩, ?_, rfl, ?_⟩
  · simp [h1, hupper, hroom, hne, exec_symbol, hname]
  · simp [Jump.holds, toNat_toUInt16 hname, Word.signed_eq_zero_iff, Block.jumpIf]

/-! ## Functions -/

theorem toNat_add_one {w : Word} (h : w.toNat < Memory.maxSize) : (w + 1).toNat = w.toNat + 1 := by
  have hsize : Memory.maxSize = 32768 := rfl
  rw [UInt16.toNat_add]
  exact Nat.mod_eq_of_lt (by show w.toNat + 1 < 65536; omega)

theorem exec_zeros (n : Nat) {a : Word} (d : Word) (h : a.toNat + n ≤ room) (hsmall : room ≤ Memory.maxSize) :
    exec value room (List.replicate n [Block.setM .zero, Block.setA .incA]).flatten ⟨a, d, m⟩ =
      some ⟨a + n.toUInt16, d, fun i => if a.toNat ≤ i ∧ i < a.toNat + n then 0 else m i⟩ := by
  induction n generalizing a m with
  | zero =>
    have hnone : (fun i => if a.toNat ≤ i ∧ i < a.toNat + 0 then 0 else m i) = m := by
      funext i
      rw [if_neg (by omega)]
    rw [hnone]
    simp
  | succ n ih =>
    -- the first cell is cleared with A at it, and the hypothesis is about the next one
    have ha : a.toNat < room := by omega
    have hnext : (a + 1).toNat = a.toNat + 1 := toNat_add_one (Nat.lt_of_lt_of_le ha hsmall)
    have hcells : (fun i => if (a + 1).toNat ≤ i ∧ i < (a + 1).toNat + n then 0 else update m a.toNat 0 i) =
        fun i => if a.toNat ≤ i ∧ i < a.toNat + (n + 1) then 0 else m i := by
      funext i
      rw [hnext]
      by_cases hi : i = a.toNat
      · rw [hi, Function.update_self, ite_self, if_pos (by omega)]
      · rw [Function.update_of_ne hi]
        by_cases hin : a.toNat + 1 ≤ i ∧ i < a.toNat + 1 + n
        · rw [if_pos hin, if_pos (by omega)]
        · rw [if_neg hin, if_neg (by omega)]
    have hsum : a + 1 + n.toUInt16 = a + (n + 1).toUInt16 := by
      have hsucc : (n + 1).toUInt16 = n.toUInt16 + 1 := by simp [Nat.toUInt16]
      rw [hsucc]
      grind
    have hrest := ih (a := a + 1) (m := update m a.toNat 0) (by omega)
    rw [hcells, hsum] at hrest
    rw [List.replicate_succ, List.flatten_cons]
    simp [ha, hrest]

theorem moves_function {name : Bytes} {locals : Nat}
    (hinstalled : Installed rom (symbolValue program) pc (Block.function name locals))
    (hcells : ∀ i ∈ List.range' (sp m) locals, 16 ≤ i ∧ i < room) (hsmall : room ≤ Memory.maxSize) :
    Moves rom room pc m (pc + size (Block.function name locals)) (Stack.reserve locals m) := by
  refine .straight hinstalled fun a d => ?_
  by_cases hlocals : locals = 0
  · have hnone : Stack.reserve 0 m = m := by
      funext i
      by_cases hi : i = 0
      · simp [Stack.reserve, hi]
      · simp only [Stack.reserve, Function.update_of_ne hi]
        rw [if_neg (by omega)]
    subst hlocals
    exact ⟨a, d, by rw [hnone]; rfl⟩
  · have hfirst := hcells (sp m) (List.mem_range'.mpr ⟨0, by omega, by omega⟩)
    have hlast := hcells (sp m + (locals - 1)) (List.mem_range'.mpr ⟨locals - 1, by omega, by omega⟩)
    have hzeros : exec (symbolValue program) room (List.replicate locals [Block.setM .zero, Block.setA .incA]).flatten
        ⟨m 0, d, m⟩ = some ⟨m 0 + locals.toUInt16, d, fun i => if sp m ≤ i ∧ i < sp m + locals then 0 else m i⟩ :=
      exec_zeros locals d (show sp m + locals ≤ room by omega) hsmall
    have hroom : 16 ≤ room := by omega
    simp [Block.function, hlocals, hroom, exec, exec_append, hzeros, Stack.reserve]

theorem sp_push (w : Word) (h : sp m < Memory.maxSize) : sp (Stack.push m w) = sp m + 1 := by
  rw [sp, Stack.push, Function.update_self]
  exact toNat_add_one h

theorem push_register (w : Word) {i : Nat} (h : 16 ≤ sp m) (hi : i < 16) (hne : i ≠ 0) : Stack.push m w i = m i := by
  rw [Stack.push, Function.update_of_ne hne, Function.update_of_ne (by omega)]

theorem exec_saves (names : List String)
    (hnames : ∀ name ∈ names, symbolValue program (ascii name) ≠ 0 ∧ symbolValue program (ascii name) < 16) (a d : Word)
    (hlower : 16 ≤ sp m) (hupper : sp m + names.length ≤ room) (hsmall : room ≤ Memory.maxSize) :
    ∃ a' d', exec (symbolValue program) room
      (names.flatMap fun name => [Block.register name, Block.setD .m] ++ Block.pushD) ⟨a, d, m⟩ =
        some ⟨a', d', (names.map fun name => m (symbolValue program (ascii name))).foldl Stack.push m⟩ := by
  induction names generalizing a d m with
  | nil => exact ⟨a, d, rfl⟩
  | cons name rest ih =>
    rw [List.forall_mem_cons] at hnames
    obtain ⟨⟨hne, hlt⟩, hrest⟩ := hnames
    rw [List.length_cons] at hupper
    generalize hw : m (symbolValue program (ascii name)) = w
    have hsave : exec (symbolValue program) room ([Block.register name, Block.setD .m] ++ Block.pushD) ⟨a, d, m⟩ =
        some ⟨0, w, Stack.push m w⟩ := by
      have hin := lt_maxSize hlt
      have hroom : 16 ≤ room := by omega
      simp [exec_register, toNat_toUInt16 hin, hin, hlt, hroom, hw, exec_pushD _ _ hlower (by omega : sp m < room)]
    have hsp : sp (Stack.push m w) = sp m + 1 := sp_push w (by omega)
    have hsame : (rest.map fun other => Stack.push m w (symbolValue program (ascii other))) =
        rest.map fun other => m (symbolValue program (ascii other)) :=
      List.map_congr_left fun other h => push_register w hlower (hrest other h).2 (hrest other h).1
    obtain ⟨a', d', hexec⟩ := ih hrest 0 w (m := Stack.push m w) (by omega) (by omega)
    refine ⟨a', d', ?_⟩
    rw [List.flatMap_cons, exec_append, hsave, Option.bind_some, hexec, hsame, List.map_cons, List.foldl_cons, hw]

/-- The part of a call that pushes the frame. -/
def frame (back : Bytes) : Block :=
  [Block.symbol back, Block.setD .a] ++ Block.pushD ++
    ["LCL", "ARG", "THIS", "THAT"].flatMap (fun r => [Block.register r, Block.setD .m] ++ Block.pushD)

/-- The part of a call that sets the segment pointers of the callee and loads its address. -/
def transfer (name : Bytes) (below : Int) : Block :=
  [Block.register "SP", Block.setD .m, Block.number below, Block.setD .dMinusA, Block.register "ARG", Block.setM .d,
    Block.register "SP", Block.setD .m, Block.register "LCL", Block.setM .d, Block.symbol name]

theorem call_eq (name back : Bytes) (arguments : Int64) : Block.call name back arguments =
    (frame back ++ transfer name (arguments + 5).toInt) ++ [Block.jumpAlways] ++ [.label back] := by
  simp [Block.call, frame, transfer]

theorem exec_frame {back : Bytes} (hback : symbolValue program back < Memory.maxSize) (a d : Word)
    (hlower : 16 ≤ sp m) (hupper : sp m + 5 ≤ room) (hsmall : room ≤ Memory.maxSize) :
    ∃ a' d', exec (symbolValue program) room (frame back) ⟨a, d, m⟩ =
      some ⟨a', d', [(symbolValue program back).toUInt16, m 1, m 2, m 3, m 4].foldl Stack.push m⟩ := by
  generalize hw : (symbolValue program back).toUInt16 = w
  have hstart : exec (symbolValue program) room ([Block.symbol back, Block.setD .a] ++ Block.pushD) ⟨a, d, m⟩ =
      some ⟨0, w, Stack.push m w⟩ := by
    simp [exec_symbol, hback, hw, exec_pushD _ _ hlower (by omega : sp m < room)]
  have hsp : sp (Stack.push m w) = sp m + 1 := sp_push w (by omega)
  have hnames : ∀ name ∈ ["LCL", "ARG", "THIS", "THAT"],
      symbolValue program (ascii name) ≠ 0 ∧ symbolValue program (ascii name) < 16 := by
    simp [symbolValue_pointers]
  have hframe : (["LCL", "ARG", "THIS", "THAT"].map fun name => Stack.push m w (symbolValue program (ascii name))) =
      [m 1, m 2, m 3, m 4] := by
    simp [symbolValue_pointers, push_register w hlower]
  obtain ⟨a', d', hsaves⟩ := exec_saves _ hnames 0 w (m := Stack.push m w) (by omega)
    (by rw [hsp]; exact hupper) hsmall
  rw [hframe] at hsaves
  refine ⟨a', d', ?_⟩
  rw [frame, exec_append, hstart, Option.bind_some, hsaves, ← List.foldl_cons (b := m)]

theorem exec_transfer {name : Bytes} {below : Int} (hname : symbolValue program name < Memory.maxSize)
    (hbelow : 0 ≤ below ∧ below ≤ maxNumber) (hroom : 16 ≤ room) (a d : Word) :
    exec (symbolValue program) room (transfer name below) ⟨a, d, m⟩ =
      some ⟨(symbolValue program name).toUInt16, m 0, update (update m 2 (m 0 - Word.ofInt below)) 1 (m 0)⟩ := by
  simp [transfer, hbelow, hroom, exec_symbol, hname]

/-- A call pushes a frame, sets the segment pointers of the callee and jumps. -/
theorem moves_call {name back : Bytes} {arguments : Int64}
    (hinstalled : Installed rom (symbolValue program) pc (Block.call name back arguments))
    (hname : symbolValue program name < Memory.maxSize) (hback : symbolValue program back < Memory.maxSize)
    (hnumber : 0 ≤ (arguments + 5).toInt ∧ (arguments + 5).toInt ≤ maxNumber)
    (hsum : (arguments + 5).toInt = arguments.toInt + 5) (hlower : 16 ≤ sp m) (hupper : sp m + 5 ≤ room)
    (hsmall : room ≤ Memory.maxSize) :
    Moves rom room pc m (symbolValue program name) (Stack.enter (symbolValue program back).toUInt16 arguments m) := by
  generalize hm' : [(symbolValue program back).toUInt16, m 1, m 2, m 3, m 4].foldl Stack.push m = m'
  have h0 : m' 0 = m 0 + 5 := by
    rw [← hm']
    simp only [List.foldl_cons, List.foldl_nil, Stack.push, Function.update_self]
    grind
  -- the block takes the frame off again, which `enter` has no need to
  have harg : m' 0 - Word.ofInt (arguments + 5).toInt = m 0 - Word.ofInt arguments.toInt := by
    have hofInt : Word.ofInt (arguments.toInt + 5) = Word.ofInt arguments.toInt + 5 := UInt16.ofInt_add _ _
    rw [hsum, hofInt, h0]
    grind
  have henter : Stack.enter (symbolValue program back).toUInt16 arguments m =
      update (update m' 2 (m' 0 - Word.ofInt (arguments + 5).toInt)) 1 (m' 0) := by
    rw [harg, ← hm']
    rfl
  rw [call_eq, installed_append] at hinstalled
  refine .jump hinstalled.1 rfl fun a d => ?_
  obtain ⟨a', d', hframe⟩ := exec_frame hback a d hlower hupper hsmall
  rw [hm'] at hframe
  have hexec : exec (symbolValue program) room (frame back ++ transfer name (arguments + 5).toInt) ⟨a, d, m⟩ = _ :=
    exec_append _ _ _
  rw [hframe, Option.bind_some, exec_transfer hname hnumber (by omega)] at hexec
  exact ⟨_, hexec, henter.symm, (toNat_toUInt16 hname).symm⟩

/-- The part of a return that hands over the result and drops the frame. -/
def handOver : Block :=
  [Block.register "LCL", Block.setD .m, Block.register "R13", Block.setM .d,
    Block.number 5, Block.setA .dMinusA, Block.setD .m, Block.register "R14", Block.setM .d,
    Block.register "SP", Block.setAM .decM, Block.setD .m, Block.register "ARG", Block.setA .m, Block.setM .d,
    Block.register "ARG", Block.setD .incM, Block.register "SP", Block.setM .d]

/-- The part of a return that takes a register back from the frame. -/
def restore (name : String) : Block :=
  [Block.register "R13", Block.setAM .decM, Block.setD .m, Block.register name, Block.setM .d]

theorem leave_eq : Block.leave = (handOver ++ ["THAT", "THIS", "ARG", "LCL"].flatMap restore ++
    [Block.register "R14", Block.setA .m]) ++ [Block.jumpAlways] := rfl

/-- The result takes the place of the first argument. Cell 13 points above the frame, and cell 14 holds the return address. -/
theorem exec_handOver (program : List Statement) (hlcl : 16 ≤ lcl m - 5) (hlcl' : lcl m - 5 < room) (hsp : 16 ≤ sp m - 1)
    (hsp' : sp m - 1 < room) (harg : 16 ≤ arg m) (harg' : arg m < room) :
    ∃ m', (∀ a d, exec (symbolValue program) room handOver ⟨a, d, m⟩ = some ⟨0, m 2 + 1, m'⟩) ∧
      Agree m' (update (update m (arg m) (m (sp m - 1))) 0 (m 2 + 1)) ∧ m' 13 = m 1 ∧ m' 14 = m (lcl m - 5) := by
  have hfive : Word.ofInt 5 = 5 := by decide
  have hback : (m 1 - 5).toNat = lcl m - 5 := UInt16.toNat_sub_of_le _ _ (show 5 ≤ lcl m by omega)
  have htop : (m 0 - 1).toNat = sp m - 1 := toNat_below (by omega)
  have h2 : (m 2).toNat = arg m := rfl
  have hnumber : (0 : Int) ≤ 5 ∧ (5 : Int) ≤ maxNumber := by decide
  have hne : ∀ i, 16 ≤ i → i ≠ 0 ∧ i ≠ 13 ∧ i ≠ 14 := by omega
  have hne' : ∀ i, i < 16 → i ≠ arg m := by omega
  have hroom : 16 ≤ room := by omega
  refine ⟨update (update (update (update (update m 13 (m 1)) 14 (m (lcl m - 5))) 0 (m 0 - 1)) (arg m) (m (sp m - 1))) 0
    (m 2 + 1), fun a d => ?_, fun i hi h13 h14 => ?_, ?_, ?_⟩
  · simp [handOver, hnumber, hfive, hback, htop, h2, hroom, hlcl', hsp', harg', hne _ hlcl, hne _ hsp, hne']
  · by_cases h0 : i = 0
    · rw [h0, Function.update_self, Function.update_self]
    · simp only [Function.update_apply, h0, h13, h14, if_false]
  · simp [hne']
  · simp [hne']

/-- What is in memory when registers have been taken back from the cells below `top`. -/
def restored (value : Bytes → Nat) : Nat → List String → Cells → Cells
  | _, [], m => m
  | top, name :: rest, m => restored value (top - 1) rest (update m (value (ascii name)) (m (top - 1)))

theorem exec_restores (names : List String) (hnames : ∀ name ∈ names, symbolValue program (ascii name) < 13) {n : Cells}
    {top : Nat} (hm : Agree m n) (htop : (m 13).toNat = top)
    (hcells : ∀ j, 1 ≤ j → j ≤ names.length → 16 ≤ top - j ∧ top - j < room) (hsmall : room ≤ Memory.maxSize)
    (a d : Word) :
    ∃ a' d' m', exec (symbolValue program) room (names.flatMap restore) ⟨a, d, m⟩ = some ⟨a', d', m'⟩ ∧
      Agree m' (restored (symbolValue program) top names n) ∧ m' 14 = m 14 := by
  induction names generalizing m n top a d with
  | nil => exact ⟨a, d, m, rfl, hm, rfl⟩
  | cons name rest ih =>
    rw [List.forall_mem_cons] at hnames
    obtain ⟨hname, hrest⟩ := hnames
    obtain ⟨hlower, hupper⟩ := hcells 1 (Nat.le_refl 1) (by simp)
    generalize hr : symbolValue program (ascii name) = r at hname
    have hcell : (m 13 - 1).toNat = top - 1 := by rw [toNat_sub_one (by omega), htop]
    have hin : r < Memory.maxSize := lt_maxSize (by omega)
    have hvalue : m (top - 1) = n (top - 1) := hm.cell ⟨hlower, Nat.lt_of_lt_of_le hupper hsmall⟩
    generalize hnext : update (update m 13 (m 13 - 1)) r (n (top - 1)) = m₁
    have hexec : exec (symbolValue program) room (restore name) ⟨a, d, m⟩ = some ⟨r.toUInt16, n (top - 1), m₁⟩ := by
      have hne : top - 1 ≠ 13 := by omega
      have hroom : 16 ≤ room ∧ r < room := by omega
      simp [restore, exec_register, hr, toNat_toUInt16 hin, hin, hroom, hcell, hupper, hvalue, hne, hnext]
    have hagree : Agree m₁ (update n r (n (top - 1))) := hnext ▸ (hm.scratch (.inl rfl) _).update _ _
    have htop₁ : (m₁ 13).toNat = top - 1 := by
      rw [← hnext, Function.update_of_ne (by omega), Function.update_self, hcell]
    have hkeep : m₁ 14 = m 14 := by
      rw [← hnext, Function.update_of_ne (by omega), Function.update_of_ne (by omega)]
    obtain ⟨a', d', m', hexec', hagree', hkeep'⟩ := ih hrest hagree htop₁ (fun j h1 hj => by
      rw [Nat.sub_sub, Nat.add_comm 1]
      exact hcells (j + 1) (by omega) (Nat.succ_le_succ hj)) r.toUInt16 (n (top - 1))
    refine ⟨a', d', m', ?_, ?_, hkeep'.trans hkeep⟩
    · rw [List.flatMap_cons, exec_append, hexec, Option.bind_some, hexec']
    · rw [restored, hr]
      exact hagree'

theorem moves_leave (hinstalled : Installed rom (symbolValue program) pc Block.leave)
    (hframe : ∀ j, 1 ≤ j → j ≤ 5 → 16 ≤ lcl m - j ∧ lcl m - j < room)
    (hsp : 16 ≤ sp m - 1) (hsp' : sp m - 1 < room) (harg : 16 ≤ arg m) (harg' : arg m < room)
    (hapart : ∀ j, 1 ≤ j → j ≤ 4 → lcl m - j ≠ arg m) (hsmall : room ≤ Memory.maxSize) :
    ∃ m', Moves rom room pc m (m (lcl m - 5)).toNat m' ∧ Agree m' (Stack.leave m) := by
  obtain ⟨hlcl, hlcl'⟩ := hframe 5 (by omega) (by omega)
  obtain ⟨m₁, hover, hagree, h13, h14⟩ := exec_handOver program hlcl hlcl' hsp hsp' harg harg'
  have hnames : ∀ name ∈ ["THAT", "THIS", "ARG", "LCL"], symbolValue program (ascii name) < 13 := by
    simp [symbolValue_pointers]
  have htop : (m₁ 13).toNat = lcl m := by rw [h13]; rfl
  obtain ⟨a', d', m', hexec, hagree', h14'⟩ := exec_restores _ hnames hagree htop
    (fun j h1 h4 => hframe j h1 (Nat.le_succ_of_le h4)) hsmall 0 (m 2 + 1)
  have hroom : 16 ≤ room := by omega
  refine ⟨m', ?_, ?_⟩
  · rw [leave_eq] at hinstalled
    refine .jump hinstalled rfl fun a d => ⟨⟨m' 14, d', m'⟩, ?_, rfl, ?_⟩
    · rw [exec_append, exec_append, hover, Option.bind_some, hexec, Option.bind_some]
      simp [hroom]
    · rw [h14', h14]
      rfl
  · -- neither the result nor a register that is taken back changes the part of the frame that is still to be read
    have hcells : ∀ j, 1 ≤ j → j ≤ 4 → ∀ i < 5, lcl m - j ≠ i := fun j h1 h4 i hi => by
      have hlow := (hframe j h1 (by omega)).1
      omega
    have heq : restored (symbolValue program) (lcl m) ["THAT", "THIS", "ARG", "LCL"]
        (update (update m (arg m) (m (sp m - 1))) 0 (m 2 + 1)) = Stack.leave m := by
      simp [restored, symbolValue_pointers, Stack.leave, Nat.sub_sub, hcells,
        hapart]
    rwa [heq] at hagree'

end HackPlatform.Code
