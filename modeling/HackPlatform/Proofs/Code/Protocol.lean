import HackPlatform.Proofs.Code.Placed
import HackPlatform.Proofs.Code.Simulation

/-!
# Calls and returns

A call leaves a frame above the arguments: the return address and the segment pointers of the caller (`HoldsFrame`). Behind the
block of the function the local variables are zero, and whatever the function does afterwards, a return that finds the frame
leads behind the call, with the result in the place of the first argument and the segment pointers of the caller
(`call_function_return`). If there are no arguments that place is in the frame: the result takes the cell of the return
address, which has been read before.
-/

namespace HackPlatform.Code

open Assembly (Installed Moves size symbolValue)
open Function (update)
open Stack (Agree sp lcl arg)

/-! ## What a call leaves in memory -/

/-- From the cell `s` on, memory holds a return address and the segment pointers of the caller. -/
def HoldsFrame (caller : Cells) (back : Word) (s : Nat) (m : Cells) : Prop :=
  ∀ j : Fin 5, m (s + j) = [back, caller 1, caller 2, caller 3, caller 4].get j

theorem foldl_push_spec (ws : List Word) {m : Cells} (hlower : 1 ≤ sp m) (hupper : sp m + ws.length ≤ Memory.maxSize) :
    sp (ws.foldl Stack.push m) = sp m + ws.length ∧ (∀ j : Fin ws.length, ws.foldl Stack.push m (sp m + j) = ws.get j) ∧
      ∀ i, i ≠ 0 → (i < sp m ∨ sp m + ws.length ≤ i) → ws.foldl Stack.push m i = m i := by
  induction ws generalizing m with
  | nil => exact ⟨rfl, fun j => j.elim0, fun _ _ _ => rfl⟩
  | cons w rest ih =>
    rw [List.length_cons] at hupper
    have hsp : sp (Stack.push m w) = sp m + 1 := sp_push w (by omega)
    have hcell : ∀ i, i ≠ 0 → Stack.push m w i = update m (sp m) w i := fun i hi => Function.update_of_ne hi _ _
    obtain ⟨hfree, hwords, hother⟩ := ih (m := Stack.push m w) (by omega) (by omega)
    rw [hsp] at hfree hwords hother
    refine ⟨by rw [List.length_cons, List.foldl_cons, hfree]; omega, fun j => ?_, fun i h0 hi => ?_⟩
    · -- the first word is below the others
      refine Fin.cases ?_ (fun j => ?_) j
      · show rest.foldl Stack.push (Stack.push m w) (sp m) = w
        rw [hother _ (by omega) (by omega), hcell _ (by omega), Function.update_self]
      · have hnext := hwords j
        rwa [Nat.add_assoc, Nat.add_comm 1] at hnext
    · rw [List.length_cons] at hi
      rw [List.foldl_cons, hother i h0 (by omega), hcell i h0, Function.update_of_ne (by omega)]

theorem enter_spec {m : Cells} (back : Word) (arguments : Int64) (hlower : 16 ≤ sp m) (hupper : sp m + 5 ≤ Memory.maxSize) :
    let m' := Stack.enter back arguments m
    sp m' = sp m + 5 ∧ lcl m' = sp m + 5 ∧ m' 2 = m 0 - Word.ofInt arguments.toInt ∧ HoldsFrame m back (sp m) m' ∧
      ∀ i, 2 < i → (i < sp m ∨ sp m + 5 ≤ i) → m' i = m i := by
  intro m'
  obtain ⟨hfree, hwords, hother⟩ := foldl_push_spec [back, m 1, m 2, m 3, m 4] (by omega) hupper
  have hcell : ∀ i, 2 < i → m' i = [back, m 1, m 2, m 3, m 4].foldl Stack.push m i := fun i hi => by
    show update (update _ 2 _) 1 _ i = _
    rw [Function.update_of_ne (by omega), Function.update_of_ne (by omega)]
  refine ⟨?_, ?_, ?_, fun j => ?_, fun i hi hout => ?_⟩
  · exact hfree
  · exact hfree
  · rfl
  · rw [hcell _ (by omega)]
    exact hwords j
  · rw [hcell i hi]
    exact hother i (by omega) hout

theorem reserve_spec (m : Cells) (locals : Nat) (hupper : sp m + locals ≤ Memory.maxSize) :
    let m' := Stack.reserve locals m
    sp m' = sp m + locals ∧ (∀ i, i ≠ 0 → sp m ≤ i → i < sp m + locals → m' i = 0) ∧
      ∀ i, i ≠ 0 → (i < sp m ∨ sp m + locals ≤ i) → m' i = m i := by
  have hsize : Memory.maxSize = 32768 := rfl
  refine ⟨?_, fun i h0 hle hlt => ?_, fun i h0 hout => ?_⟩
  · have hlocals : locals.toUInt16.toNat = locals := Nat.mod_eq_of_lt (show locals < 65536 by omega)
    rw [sp, Stack.reserve, Function.update_self, UInt16.toNat_add, hlocals]
    exact Nat.mod_eq_of_lt (show sp m + locals < 65536 by omega)
  · rw [Stack.reserve, Function.update_of_ne h0, if_pos ⟨hle, hlt⟩]
  · rw [Stack.reserve, Function.update_of_ne h0, if_neg (by omega)]

theorem toNat_sub_ofInt {w : Word} {n : Int} (hn : 0 ≤ n) (hle : n.toNat ≤ w.toNat) (hmax : n.toNat < Memory.maxSize) :
    (w - Word.ofInt n).toNat = w.toNat - n.toNat := by
  have hsize : Memory.maxSize = 32768 := rfl
  have hlimit : (Assembly.maxNumber : Int) = 32767 := rfl
  have hnumber : (Word.ofInt n).toNat = n.toNat := Word.toNat_ofInt (by omega)
  rw [UInt16.toNat_sub_of_le _ _ (by rw [UInt16.le_iff_toNat_le, hnumber]; exact hle), hnumber]

/-- What is in memory behind the block of a function that has been called with `n` arguments. -/
theorem enter_reserve_spec {m : Cells} (back : Word) {arguments : Int64} {locals : Nat} (harguments : 0 ≤ arguments.toInt)
    (hlower : 16 + arguments.toInt.toNat ≤ sp m) (hupper : sp m + 5 + locals ≤ Memory.maxSize) :
    let m' := Stack.reserve locals (Stack.enter back arguments m)
    HoldsFrame m back (sp m) m' ∧ arg m' = sp m - arguments.toInt.toNat ∧ lcl m' = sp m + 5 ∧ sp m' = sp m + 5 + locals ∧
      (∀ i, sp m + 5 ≤ i → i < sp m + 5 + locals → m' i = 0) ∧
      ∀ i, 2 < i → (i < sp m ∨ sp m + 5 + locals ≤ i) → m' i = m i := by
  obtain ⟨hsp, hlcl, harg, hframe, hkept⟩ := enter_spec back arguments (by omega : 16 ≤ sp m) (by omega)
  obtain ⟨hsp', hzero, hkept'⟩ := reserve_spec (Stack.enter back arguments m) locals (by omega)
  rw [hsp] at hsp' hzero hkept'
  refine ⟨fun j => ?_, ?_, ?_, hsp', fun i hle hlt => hzero i (by omega) hle hlt, fun i hi hout => ?_⟩
  · rw [hkept' _ (by omega) (.inl (by omega))]
    exact hframe j
  · rw [arg, hkept' 2 (by omega) (.inl (by omega)), harg]
    exact toNat_sub_ofInt harguments (show _ ≤ sp m by omega) (by omega)
  · rw [lcl, hkept' 1 (by omega) (.inl (by omega))]
    exact hlcl
  · rw [hkept' i (by omega) (by omega), hkept i hi (by omega)]

/-- What is in memory when a function has been left that a call with a frame at `s` had entered. -/
theorem leave_spec {caller m : Cells} {back : Word} {s : Nat} (hframe : HoldsFrame caller back s m) (hlcl : lcl m = s + 5)
    (harg : 16 ≤ arg m) (harg' : arg m < Memory.maxSize) :
    let m' := Stack.leave m
    m' (arg m) = m (sp m - 1) ∧ sp m' = arg m + 1 ∧ (∀ i, 1 ≤ i → i ≤ 4 → m' i = caller i) ∧
      ∀ i, 4 < i → i ≠ arg m → m' i = m i := by
  intro m'
  have hout : ∀ i, 4 < i → m' i = update m (arg m) (m (sp m - 1)) i := fun i hi => by
    show update (update (update (update (update _ 0 _) 4 _) 3 _) 2 _) 1 _ i = _
    iterate 5 rw [Function.update_of_ne (by omega)]
  refine ⟨?_, ?_, fun i h1 h4 => ?_, fun i hi hne => ?_⟩
  · rw [hout _ (by omega), Function.update_self]
  · exact toNat_add_one harg'
  · -- the pointer `i` is in the cell `i` of the frame, that is, `5 - i` cells below the local variables
    have hcell : m' i = m (lcl m - (5 - i)) := by
      obtain rfl | rfl | rfl | rfl : i = 1 ∨ i = 2 ∨ i = 3 ∨ i = 4 := by omega
      all_goals rfl
    rw [hcell, hlcl, show s + 5 - (5 - i) = s + i by omega]
    obtain rfl | rfl | rfl | rfl : i = 1 ∨ i = 2 ∨ i = 3 ∨ i = 4 := by omega
    · exact hframe 1
    · exact hframe 2
    · exact hframe 3
    · exact hframe 4
  · rw [hout i hi, Function.update_of_ne hne]

/-! ## The blocks -/

theorem valid_run (sink : Stream.Sink) (ops : List Operation) :
    (run (Writer.new sink) ops).scope.Valid fun _ => True := by
  have hrun : ∀ w : Writer, w.scope.Valid (fun _ => True) → (run w ops).scope.Valid fun _ => True := by
    induction ops with
    | nil => exact fun w h => h
    | cons op rest ih =>
      intro w h
      refine ih _ ?_
      by_cases hanswer : (op.apply w).2 = none
      · obtain ⟨block, hlower, -⟩ := (op.stepped w).done hanswer
        exact Operation.valid hlower h fun _ _ => trivial
      · rw [(op.stepped w).scope hanswer]
        exact h
  exact hrun _ (valid_empty _)

theorem wellNamed_call {s : Scope} (hs : s.Valid fun _ => True) {name : Bytes} {arguments : Int64}
    (hname : isIdentifier name = true) (harguments : 0 ≤ arguments.toInt) :
    ∀ st ∈ Block.call name (s.backOf name).symbol arguments, st.WellNamed := by
  -- the file does not go into the block
  have hlowers : Lowers { s with file := [] } (.call name arguments) (Block.call name (s.backOf name).symbol arguments) _ :=
    .call hname harguments
  exact hlowers.wellNamed ⟨hs.function, by simp⟩

theorem moves_call_function {rom : Array Instruction} {program : List Assembly.Statement} {room pc pc' locals : Nat} {m : Cells}
    {name back : Bytes} {arguments : Int64} (hcall : Installed rom (symbolValue program) pc (Block.call name back arguments))
    (hfunction : Installed rom (symbolValue program) pc' (Block.function name locals))
    (hreadable : ∀ st ∈ Block.call name back arguments, st.Readable) (harguments : 0 ≤ arguments.toInt)
    (hpc' : pc' < Memory.maxSize) (hback : pc + size (Block.call name back arguments) < Memory.maxSize) (hlower : 16 ≤ sp m)
    (hupper : sp m + 5 + locals ≤ room) (hsmall : room ≤ Memory.maxSize) :
    Moves rom room pc m (pc' + size (Block.function name locals))
      (Stack.reserve locals (Stack.enter (pc + size (Block.call name back arguments)).toUInt16 arguments m)) := by
  have hnumber := number_of_readable (hreadable (Block.number (arguments + 5).toInt) (by simp [call_eq, transfer]))
  have hentry : symbolValue program name = pc' := hfunction.1
  have hreturn := value_back hcall
  have hentered := moves_call hcall (hentry ▸ hpc') (hreturn ▸ hback) hnumber
    (toInt_add_of_nonneg harguments (by decide) hnumber.1) hlower (by omega : sp m + 5 ≤ room) hsmall
  rw [hentry, hreturn] at hentered
  obtain ⟨hsp, -⟩ := enter_spec (pc + size (Block.call name back arguments)).toUInt16 arguments hlower
    (by omega : sp m + 5 ≤ Memory.maxSize)
  refine hentered.trans (moves_function hfunction (fun i hi => ?_) hsmall)
  obtain ⟨j, hj, rfl⟩ := List.mem_range'.mp hi
  omega

theorem moves_return {rom : Array Instruction} {program : List Assembly.Statement} {room pc s back : Nat} {caller m : Cells}
    (hinstalled : Installed rom (symbolValue program) pc Block.leave) (hframe : HoldsFrame caller back.toUInt16 s m)
    (hback : back < Memory.maxSize) (hlcl : lcl m = s + 5) (harg : 16 ≤ arg m) (harg' : arg m ≤ s) (hlower : s + 5 < sp m)
    (hupper : sp m ≤ room) (hsmall : room ≤ Memory.maxSize) :
    ∃ m', Moves rom room pc m back m' ∧ Agree m' (Stack.leave m) := by
  obtain ⟨m', hmoves, hagree⟩ := moves_leave hinstalled (fun j h1 h5 => by omega) (by omega : 16 ≤ sp m - 1)
    (by omega : sp m - 1 < room) harg (by omega) (fun j h1 h4 => by omega) hsmall
  have hcell : m (lcl m - 5) = back.toUInt16 := by
    rw [hlcl]
    exact hframe 0
  rw [hcell, toNat_toUInt16 hback] at hmoves
  exact ⟨m', hmoves, hagree⟩

/-- The protocol of calls, for the blocks of a call, of the function that is called and of a return, wherever they stand in a
program that is assembled, if the addresses of the function and of the return fit a load instruction. From the first
instruction of the call, with the stack pointer `s` above `n` arguments and with room for the frame and `k` local variables, the
computer gets behind the block of the function without an error. The frame is then in the cells from `s` on, and the local
variables, which are zero, are behind it; the segments and the stack pointer are set, and nothing else has changed. From any
state at the return in which the segment pointers and the frame are still those, the computer gets behind the call. The
result is then in the first cell of the arguments, which is that of the return address if there are none; the stack pointer is
behind it; the segment pointers are those of the caller, and nothing else has changed apart from cells 13 and 14. -/
theorem call_function_return {sink : Stream.Sink} {before : List Operation} {name file text : Bytes}
    {arguments locals : Int64} {callBlock functionBlock : Block} {caller callee callee' : Scope} {rom : Array Instruction}
    {callAt functionAt : Nat} {machine : Computer}
    (hcall : (run (Writer.new sink) before).scope.lower (.call name arguments) = .ok (callBlock, caller))
    (hfunction : callee.lower (.function name locals) = .ok (functionBlock, callee'))
    (hassemble : Assembly.assemble file (Source.ofBytes text) = .ok rom) (hcallAt : StandsAt text callAt callBlock)
    (hfunctionAt : StandsAt text functionAt functionBlock)
    (hfits : functionAt < Memory.maxSize ∧ callAt + size callBlock < Memory.maxSize)
    (hrom : machine.rom = rom) (hpc : machine.pc = callAt) (hkeyboard : machine.keyboard = none)
    (hsmall : machine.ram.size ≤ Memory.maxSize) (hlower : 16 + arguments.toInt.toNat ≤ sp machine.ram.read)
    (hupper : sp machine.ram.read + 5 + locals.toInt.toNat ≤ machine.ram.size) :
    let m := machine.ram.read
    let s := sp m
    let n := arguments.toInt.toNat
    let k := locals.toInt.toNat
    let back := callAt + size callBlock
    (∃ machine', machine.Reaches machine' ∧ machine'.pc = (functionAt + size functionBlock : Nat) ∧
      machine'.ram.size = machine.ram.size ∧
      let m' := machine'.ram.read
      HoldsFrame m back.toUInt16 s m' ∧ arg m' = s - n ∧ lcl m' = s + 5 ∧ sp m' = s + 5 + k ∧
        (∀ i, s + 5 ≤ i → i < s + 5 + k → m' i = 0) ∧ ∀ i, 2 < i → (i < s ∨ s + 5 + k ≤ i) → m' i = m i) ∧
    ∀ (leaving left : Scope) (returnBlock : Block) (returnAt : Nat), leaving.lower .return = .ok (returnBlock, left) →
      StandsAt text returnAt returnBlock → ∀ later : Computer, later.rom = rom → later.pc = returnAt →
      later.keyboard = none → later.ram.size ≤ Memory.maxSize →
      let l := later.ram.read
      lcl l = s + 5 → arg l = s - n → HoldsFrame m back.toUInt16 s l → s + 5 < sp l → sp l ≤ later.ram.size →
      ∃ later', later.Reaches later' ∧ later'.pc = back ∧ later'.ram.size = later.ram.size ∧
        let l' := later'.ram.read
        l' (s - n) = l (sp l - 1) ∧ sp l' = s - n + 1 ∧ (∀ i, 1 ≤ i → i ≤ 4 → l' i = m i) ∧
          ∀ i < later.ram.size, 4 < i → i ≠ s - n → i ≠ 13 → i ≠ 14 → l' i = l i := by
  intro m s n k back
  obtain ⟨program, hprogram⟩ := exists_installed hassemble
  cases lowers_of_lower hcall with
  | call hname harguments =>
  cases lowers_of_lower hfunction with
  | function hname hlocals =>
  obtain ⟨hcallIn, hreadable, -⟩ := hprogram _ _ (wellNamed_call (valid_run sink before) hname harguments) hcallAt
  have hfunctionLowers : Lowers {} (.function name locals) _ _ := .function hname hlocals
  obtain ⟨hfunctionIn, -⟩ := hprogram _ _ (hfunctionLowers.wellNamed (valid_empty _)) hfunctionAt
  have hbounds : sp m = s ∧ 16 + n ≤ s ∧ s + 5 + k ≤ Memory.maxSize := ⟨rfl, hlower, Nat.le_trans hupper hsmall⟩
  refine ⟨?_, ?_⟩
  · obtain ⟨machine', a, d, hreaches, hshows⟩ := moves_call_function hcallIn hfunctionIn hreadable harguments hfits.1 hfits.2
      (by omega) hupper hsmall machine machine.a machine.d ⟨hrom, hpc, rfl, hkeyboard, rfl, rfl, rfl⟩
    refine ⟨machine', hreaches, hshows.pc, hshows.size, ?_⟩
    simp only [hshows.cells]
    exact enter_reserve_spec _ harguments hlower hbounds.2.2
  · intro leaving left returnBlock returnAt hreturn hreturnAt later hlater hlaterPc hsilent hlaterSmall l hlcl harg hframe
      hfree hfree'
    obtain ⟨rfl, rfl⟩ := Prod.mk.inj (Except.ok.inj hreturn)
    have hreturnLowers : Lowers {} .return Block.leave {} := .return
    obtain ⟨hleaveIn, -⟩ := hprogram _ _ (hreturnLowers.wellNamed (valid_empty _)) hreturnAt
    obtain ⟨m', hmoves, hagree⟩ := moves_return hleaveIn hframe hfits.2 hlcl (by omega) (by omega) hfree hfree' hlaterSmall
    obtain ⟨later', a, d, hreaches, hshows⟩ := hmoves later later.a later.d
      ⟨hlater, hlaterPc, rfl, hsilent, rfl, rfl, rfl⟩
    obtain ⟨hresult, hsp, hpointers, hkept⟩ := leave_spec hframe hlcl (by omega) (by omega)
    rw [harg] at hresult hsp hkept
    refine ⟨later', hreaches, hshows.pc, hshows.size, ?_⟩
    simp only [hshows.cells]
    refine ⟨?_, ?_, fun i h1 h4 => ?_, fun i hi h4 hne h13 h14 => ?_⟩
    · rw [hagree.cell (by omega), hresult]
    · rw [sp, hagree.register (by omega)]
      exact hsp
    · rw [hagree.register (by omega), hpointers i h1 h4]
    · rw [hagree i (by omega) h13 h14, hkept i h4 hne]

/-- A call without arguments of a function with one local variable, in 32 cells of memory, and a return from it: the result takes
the place of the return address, at the bottom of the stack. -/
theorem call_function_return_bottom :
    let call := Block.call (ascii "f") (ascii "f$ret$0") 0
    let text := Block.text (call ++ Block.function (ascii "f") 1 ++ Block.leave)
    let ram := (Memory.blank 32).write 0 16
    let ram' := (((((Memory.blank 32).write 0 23).write 1 21).write 2 16).write 16 47).write 22 99
    StandsAt text 0 call ∧ StandsAt text 47 (Block.function (ascii "f") 1) ∧ StandsAt text 54 Block.leave ∧
      ∃ rom, Assembly.assemble [] (Source.ofBytes text) = .ok rom ∧
        (let machine : Computer := { rom, ram }
        ∃ machine', machine.Reaches machine' ∧ machine'.pc = 54 ∧ HoldsFrame ram.read 47 16 machine'.ram.read ∧
          sp machine'.ram.read = 22) ∧
        let later : Computer := { rom, ram := ram', pc := 54 }
        ∃ later', later.Reaches later' ∧ later'.pc = 47 ∧ later'.ram.read 16 = 99 ∧ sp later'.ram.read = 17 := by
  intro call text ram ram'
  have hcallAt : StandsAt text 0 call :=
    ⟨[], Block.text (Block.function (ascii "f") 1 ++ Block.leave), by decide +kernel, .inl rfl, rfl⟩
  have hfunctionAt : StandsAt text 47 (Block.function (ascii "f") 1) :=
    ⟨call.text, Block.leave.text, by decide +kernel, by decide +kernel, by decide +kernel⟩
  have hreturnAt : StandsAt text 54 Block.leave :=
    ⟨Block.text (call ++ Block.function (ascii "f") 1), [], by decide +kernel, by decide +kernel, by decide +kernel⟩
  obtain ⟨rom, hassemble, -⟩ : ∃ rom, Assembly.assemble [] (Source.ofBytes text) = .ok rom ∧
      rom.size = size (call ++ Block.function (ascii "f") 1 ++ Block.leave) :=
    assemble_text [] (by decide +kernel) (by decide +kernel) (by decide +kernel) (by decide +kernel)
  have hcall : (run (Writer.new {}) []).scope.lower (.call (ascii "f") 0) = .ok (call, { calls := 1 }) := by
    decide +kernel
  have hfunction : Scope.lower {} (.function (ascii "f") 1) =
      .ok (Block.function (ascii "f") 1, { function := some (ascii "f") }) := rfl
  have hsize : size call = 47 := by decide
  have hsp : sp ram.read = 16 := by decide +kernel
  have hcells : lcl ram'.read = 21 ∧ arg ram'.read = 16 ∧ sp ram'.read = 23 ∧ ram'.read 22 = 99 ∧
      HoldsFrame ram.read 47 16 ram'.read := by
    unfold HoldsFrame
    decide +kernel
  obtain ⟨⟨machine', hreaches, hpc, -, hframe, -, -, hfree, -⟩, hlater⟩ := call_function_return
    hcall hfunction hassemble hcallAt hfunctionAt (by rw [hsize]; decide) (show ({ rom, ram } : Computer).rom = rom from rfl) rfl
    rfl (show 32 ≤ 32768 by decide) (show 16 + 0 ≤ sp ram.read by omega) (show sp ram.read + 5 + 1 ≤ 32 by omega)
  obtain ⟨later', hreaches', hpc', -, hresult, hfree', -⟩ := hlater {} {} Block.leave 54 rfl hreturnAt
    { rom, ram := ram', pc := 54 } rfl rfl rfl (show 32 ≤ 32768 by decide)
    (by rw [hsp]; exact hcells.1) (by rw [hsp]; exact hcells.2.1)
    (by rw [hsp, hsize]; exact hcells.2.2.2.2) (show sp ram.read + 5 < sp ram'.read by omega)
    (show sp ram'.read ≤ 32 by omega)
  refine ⟨hcallAt, hfunctionAt, hreturnAt, rom, hassemble, ⟨machine', hreaches, hpc, ?_, ?_⟩, later', hreaches', ?_, ?_, ?_⟩
  · rw [hsp, hsize] at hframe
    exact hframe
  · rw [hsp] at hfree
    exact hfree
  · rw [hsize] at hpc'
    exact hpc'
  · rw [hsp, hcells.2.2.1] at hresult
    exact hresult.trans hcells.2.2.2.1
  · rw [hsp] at hfree'
    exact hfree'

end HackPlatform.Code
