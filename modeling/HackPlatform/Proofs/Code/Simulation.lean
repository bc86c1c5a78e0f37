import HackPlatform.Proofs.Code.Compare
import HackPlatform.Proofs.Code.Layout

/-!
# Assembled programs do what stack programs mean

The block of a command gets the computer from the address of the command to where the command leads (`moves_command`, by cases
on the rules of `Lowers`). The blocks use cells 13 and 14, which commands do not look at; so a computer that `Follows` a state of the
stack machine agrees with it in all other cells, and goes on following it through every run (`follows_run`).
-/

namespace HackPlatform.Code

open Assembly (Statement Comp Moves symbolValue size Installed)
open Stack (Command Op Segment Program Agree InBounds effect sp lcl arg)
open Function (update)

/-! ## Operations -/

theorem binary?_test (order : Ordering) :
    (test order).binary? = some fun x y => Stack.truth (decide (compare x.signed y.signed = order)) := by
  cases order with
  | eq => simp only [test, Op.binary?, compare_eq_iff_eq]
  | lt => simp only [test, Op.binary?, compare_lt_iff_lt]
  | gt => simp only [test, Op.binary?, compare_gt_iff_gt]

theorem binary?_of_mem {op : Op} {comp : Comp}
    (h : (op, comp) ∈ [(Op.add, Comp.dPlusM), (.sub, .mMinusD), (.and, .dAndM), (.or, .dOrM)]) :
    ∃ f, op.binary? = some f ∧ ∀ v, comp.result v = f (v.cells v.a.toNat) v.d := by
  simp only [List.mem_cons, Prod.mk.injEq, List.not_mem_nil, or_false] at h
  obtain ⟨rfl, rfl⟩ | ⟨rfl, rfl⟩ | ⟨rfl, rfl⟩ | ⟨rfl, rfl⟩ := h
  · exact ⟨_, rfl, fun v => UInt16.add_comm _ _⟩
  · exact ⟨_, rfl, fun v => rfl⟩
  · exact ⟨_, rfl, fun v => UInt16.and_comm _ _⟩
  · exact ⟨_, rfl, fun v => UInt16.or_comm _ _⟩

theorem unary?_of_mem {op : Op} {comp : Comp} (h : (op, comp) ∈ [(Op.neg, Comp.negM), (.not, .notM)]) :
    op.binary? = none ∧ ∃ f, op.unary? = some f ∧ ∀ v, comp.result v = f (v.cells v.a.toNat) := by
  simp only [List.mem_cons, Prod.mk.injEq, List.not_mem_nil, or_false] at h
  obtain ⟨rfl, rfl⟩ | ⟨rfl, rfl⟩ := h
  · exact ⟨rfl, _, rfl, fun v => rfl⟩
  · exact ⟨rfl, _, rfl, fun v => rfl⟩

theorem labelNames_comparison (c : Comparison) (n : Nat) :
    Assembly.labelNames (c.block n) = roles.map fun role => c.label role n := rfl

theorem moves_operation {s s' : Scope} {op : Op} {block : Block} {rom : Array Instruction} {program : List Statement}
    {room pc : Nat} {m : Cells} (h : Lowers s (.arithmetic op) block s')
    (hinstalled : Installed rom (symbolValue program) pc block)
    (hlabels : ∀ name ∈ Assembly.labelNames block, symbolValue program name < Memory.maxSize)
    (hlower : (if op.isBinary then 3 else 1) ≤ sp m) (hupper : sp m ≤ room) :
    ∃ m', op.perform? m = some m' ∧ Moves rom room pc m (pc + size block) m' := by
  cases h with
  | compare order =>
    have hbinary := binary?_test order
    rw [Op.isBinary_of_binary? hbinary, if_pos rfl] at hlower
    have hroles : ∀ role ∈ roles,
        symbolValue program ((comparison order).label role (s.count order)) < Memory.maxSize := by
      intro role hrole
      refine hlabels _ ?_
      rw [labelNames_comparison]
      exact List.mem_map.mpr ⟨role, hrole, rfl⟩
    have hmoves := moves_compare hlower hupper hinstalled hroles
    rw [answer_comparison] at hmoves
    exact ⟨_, by simp only [Op.perform?, hbinary], hmoves⟩
  | binary operation =>
    obtain ⟨f, hf, hcomp⟩ := binary?_of_mem operation
    rw [Op.isBinary_of_binary? hf, if_pos rfl] at hlower
    exact ⟨_, by simp only [Op.perform?, hf], moves_binary hcomp hinstalled hlower hupper⟩
  | unary operation =>
    obtain ⟨hnone, f, hf, hcomp⟩ := unary?_of_mem operation
    rw [Op.isBinary_of_unary? hf, if_neg (by simp)] at hlower
    exact ⟨_, by simp only [Op.perform?, hnone, hf, Option.map_some], moves_unary hcomp hinstalled hlower hupper⟩

/-! ## Segments -/

theorem toInt_add_of_nonneg {a b : Int64} (ha : 0 ≤ a.toInt) (hb : 0 ≤ b.toInt) (h : 0 ≤ (a + b).toInt) :
    (a + b).toInt = a.toInt + b.toInt := by
  have ha' := a.toInt_lt
  have hb' := b.toInt_lt
  rw [Int64.toInt_add, Int.bmod_def] at h ⊢
  split at h <;> split <;> omega

theorem number_of_readable {n : Int} (h : (Block.number n).Readable) : 0 ≤ n ∧ n ≤ Assembly.maxNumber := h

variable {bootstrap : Bool} {p : Program} {rom : Array Instruction} {m : Cells}

theorem place?_cases {s : Scope} {segment : Segment} {place : Block.Place} (h : s.place? segment = some place)
    (link : Stack.Linkage) (m : Cells) (index : Int64) :
    place = .immediate ∧ segment = .constant ∨
      place ≠ .immediate ∧ segment ≠ .constant ∧ ∃ cell, segment.cell? link s.file m index = some cell := by
  cases segment with
  | constant => exact .inl ⟨(Option.some.inj h).symm, rfl⟩
  | unknown code => exact absurd h (by simp [Scope.place?])
  | _ =>
    obtain rfl := Option.some.inj h
    exact .inr ⟨by simp, by simp, _, rfl⟩

/-- The cells that are read to find an entry, and the entry. -/
def entryCells (segment : Segment) (file : Bytes) (index : Int64) (link : Stack.Linkage) (m : Cells) : List Nat :=
  segment.register?.toList ++ (segment.cell? link file m index).toList

section

variable {program : List Statement} {room pc : Nat} {link : Stack.Linkage} {s : Scope} {segment : Segment} {index : Int64}
  {place : Block.Place} {cell : Nat}

theorem Resolves.addresses {m' : Cells} (hresolves : Resolves s segment index place)
    (hlink : ∀ file i, link.static file i = symbolValue program (staticSymbol file i))
    (hcell : segment.cell? link s.file m index = some cell) (hreadable : ∀ st ∈ Block.address place index, st.Readable)
    (hstatic : segment = .static → cell < Memory.maxSize) (hentry : ∀ i ∈ entryCells segment s.file index link m, i < room)
    (hm : ∀ register, segment.register? = some register → m' register = m register) :
    Addresses program room m' place index cell := by
  obtain ⟨hfound, hnonneg, -, -⟩ := hresolves
  -- the segments behind a register, and those at a fixed address
  have hindirect : ∀ (name : String) (register : Nat),
      symbolValue program (ascii name) = register → segment.register? = some register →
      (∀ st ∈ Block.address (.indirect name) index, st.Readable) →
      Addresses program room m' (.indirect name) index (m register + Word.ofInt index.toInt).toNat := by
    intro name register hname hregister hread
    have hnumber := number_of_readable (hread (Block.number index.toInt) (by simp [Block.address]))
    have hsmall := (Segment.range_of_register? hregister).2
    rw [← hm register hregister]
    have hroom := hentry register (List.mem_append_left _ (Option.mem_toList.mpr hregister))
    exact addresses_indirect hname (by omega) hroom hnumber
  have hdirect : ∀ base : Int64, 0 ≤ base.toInt → (∀ st ∈ Block.address (.direct base) index, st.Readable) →
      Addresses program room m' (.direct base) index (base.toInt.toNat + index.toInt.toNat) := by
    intro base hbase hread
    have hmem : Block.number (base + index).toInt ∈ Block.address (.direct base) index := List.mem_singleton.mpr rfl
    have hnumber := number_of_readable (hread _ hmem)
    have hsum := toInt_add_of_nonneg hbase hnonneg hnumber.1
    have haddress : Addresses program room m' (.direct base) index _ := addresses_direct hnumber
    rwa [hsum, Int.toNat_add hbase hnonneg] at haddress
  cases segment with
  | constant => exact absurd hcell (by simp [Segment.cell?])
  | unknown code => exact absurd hcell (by simp [Segment.cell?])
  | «local» =>
    obtain rfl := Option.some.inj hfound
    obtain rfl := Option.some.inj hcell
    exact hindirect _ 1 rfl rfl hreadable
  | argument =>
    obtain rfl := Option.some.inj hfound
    obtain rfl := Option.some.inj hcell
    exact hindirect _ 2 rfl rfl hreadable
  | this =>
    obtain rfl := Option.some.inj hfound
    obtain rfl := Option.some.inj hcell
    exact hindirect _ 3 rfl rfl hreadable
  | that =>
    obtain rfl := Option.some.inj hfound
    obtain rfl := Option.some.inj hcell
    exact hindirect _ 4 rfl rfl hreadable
  | temp =>
    obtain rfl := Option.some.inj hfound
    obtain rfl := Option.some.inj hcell
    exact hdirect 5 (by decide) hreadable
  | pointer =>
    obtain rfl := Option.some.inj hfound
    obtain rfl := Option.some.inj hcell
    exact hdirect 3 (by decide) hreadable
  | static =>
    obtain rfl := Option.some.inj hfound
    obtain rfl := Option.some.inj hcell
    have hvalue : link.static s.file index.toInt.toNat =
        symbolValue program (s.file ++ [46] ++ Numeral.ofInt index.toInt) := by
      rw [hlink, staticSymbol, Numeral.ofInt_of_nonneg hnonneg]
    have hlt := hstatic rfl
    rw [hvalue] at hlt ⊢
    exact addresses_named hlt

theorem address_subset_push (place : Block.Place) (index : Int64) : Block.address place index ⊆ Block.push place index := by
  intro st hst
  cases place with
  | immediate => exact absurd hst List.not_mem_nil
  | _ => exact List.mem_append_left _ (List.mem_append_left _ hst)

theorem address_subset_pop (place : Block.Place) (index : Int64) : Block.address place index ⊆ Block.pop place index :=
  fun _ hst => List.mem_append_left _ (List.mem_append_right _ hst)

theorem mem_entryCells (h : segment.cell? link s.file m index = some cell) : cell ∈ entryCells segment s.file index link m :=
  List.mem_append_right _ (Option.mem_toList.mpr h)

theorem entryCells_lt (h : ∀ cell, segment.cell? link s.file m index = some cell → cell < Memory.maxSize) :
    ∀ i ∈ entryCells segment s.file index link m, i < Memory.maxSize := by
  refine List.forall_mem_append.mpr ⟨fun register hregister => ?_, fun cell hcell => h cell (Option.mem_toList.mp hcell)⟩
  exact Nat.lt_trans (Segment.range_of_register? (Option.mem_toList.mp hregister)).2 (by decide)

theorem Resolves.moves_push (hresolves : Resolves s segment index place)
    (hlink : ∀ file i, link.static file i = symbolValue program (staticSymbol file i))
    (hinstalled : Installed rom (symbolValue program) pc (Block.push place index))
    (hreadable : ∀ st ∈ Block.push place index, st.Readable)
    (hstatic : ∀ cell, segment = .static → segment.cell? link s.file m index = some cell → cell < Memory.maxSize)
    (hentry : ∀ i ∈ entryCells segment s.file index link m, i < room) (hzero : 0 < room) (hupper : sp m < room) :
    ∃ w, segment.word? link s.file m index = some w ∧ Moves rom room pc m (pc + size (Block.push place index)) (pushed m w) := by
  rcases place?_cases hresolves.found link m index with ⟨rfl, rfl⟩ | ⟨hplace, hconstant, cell, hcell⟩
  · exact ⟨_, rfl, moves_constant hinstalled ⟨hresolves.nonneg, hresolves.constant rfl⟩ hzero hupper⟩
  · have haddress : Addresses program room m place index cell :=
      hresolves.addresses hlink hcell (fun st hst => hreadable st (address_subset_push place index hst))
        (fun h => hstatic cell h hcell) hentry fun _ _ => rfl
    have hword : segment.word? link s.file m index = some (m cell) := by
      rw [Segment.word?, if_neg hconstant, hcell, Option.map_some]
    exact ⟨_, hword, Code.moves_push hplace hinstalled haddress (hentry cell (mem_entryCells hcell)) hzero hupper⟩

theorem Resolves.moves_pop (hresolves : Resolves s segment index place) (haddressed : place ≠ .immediate)
    (hlink : ∀ file i, link.static file i = symbolValue program (staticSymbol file i))
    (hinstalled : Installed rom (symbolValue program) pc (Block.pop place index))
    (hreadable : ∀ st ∈ Block.pop place index, st.Readable)
    (hstatic : ∀ cell, segment = .static → segment.cell? link s.file m index = some cell → cell < Memory.maxSize)
    (hentry : ∀ i ∈ entryCells segment s.file index link m, i < room) (hscratch : 14 < room) (htop : (m 0 - 1).toNat < room) :
    ∃ cell, segment.cell? link s.file m index = some cell ∧
      Moves rom room pc m (pc + size (Block.pop place index)) (popped m cell) := by
  rcases place?_cases hresolves.found link m index with ⟨rfl, -⟩ | ⟨-, -, cell, hcell⟩
  · exact absurd rfl haddressed
  · -- when the address is computed, the value is in cell 13 and the stack pointer is down: neither is the base of a segment
    have haddress : Addresses program room (update (update m 13 (m (m 0 - 1).toNat)) 0 (m 0 - 1)) place index cell := by
      refine hresolves.addresses hlink hcell (fun st hst => hreadable st (address_subset_pop place index hst))
        (fun h => hstatic cell h hcell) hentry fun register hregister => ?_
      obtain ⟨hpos, hsmall⟩ := Segment.range_of_register? hregister
      rw [Function.update_of_ne (by omega), Function.update_of_ne (by omega)]
    exact ⟨cell, hcell, Code.moves_pop hinstalled haddress (hentry cell (mem_entryCells hcell)) hscratch htop⟩

end

/-! ## Labels -/

theorem value_back {value : Bytes → Nat} {pc : Nat} {name back : Bytes} {arguments : Int64}
    (h : Installed rom value pc (Block.call name back arguments)) :
    value back = pc + size (Block.call name back arguments) := by
  rw [call_eq, Assembly.installed_append] at h
  rw [call_eq, Assembly.size_append]
  exact h.2.1

theorem value_target {k : Nat} {s : Scope} {c : Command} {name : Bytes} (h : Linked bootstrap p rom) (hclosed : p.Closed)
    (hk : p[k]? = some (s.file, c)) (hc : c = .goto name ∨ c = .ifGoto name) (hfunction : s.function = p.functionAt k) :
    ∃ j, p.target? k s.file c = some j ∧
      symbolValue (programCode bootstrap p) (s.labelOf name).symbol = (linkage bootstrap p).address j := by
  have hbranch : c.isBranch = true := by rcases hc with rfl | rfl <;> rfl
  obtain ⟨j, hj⟩ := Option.isSome_iff_exists.mp (hclosed k s.file c hk hbranch)
  obtain ⟨file', hlabel, howner⟩ := Program.label_of_target? hc hj
  refine ⟨j, hj, ?_⟩
  rw [labelOf_eq rfl hfunction, ← howner]
  exact h.label hlabel

/-! ## Commands -/

/-- The computer does what a command means, if the command is in bounds. -/
theorem moves_command {k : Nat} {file : Bytes} {c : Command} (h : Linked bootstrap p rom) (hclosed : p.Closed)
    (hk : p[k]? = some (file, c)) (hb : InBounds (linkage bootstrap p) file m c) :
    ∃ pc n m', effect (linkage bootstrap p) p k file m c = some (pc, n) ∧
      Moves rom Memory.maxSize ((linkage bootstrap p).address k) m pc m' ∧ Agree m' n := by
  obtain ⟨s, s', block, hlowers, rfl, hfunction, hinstalled, hnext, hreadable, hlabels⟩ := h.block hk
  have hstack := hb.stack
  have hsegment := hb.segment
  have hoperation : ∀ op, c = .arithmetic op → Lowers s (.arithmetic op) block s' → ∃ pc n m',
      effect (linkage bootstrap p) p k s.file m c = some (pc, n) ∧
        Moves rom Memory.maxSize ((linkage bootstrap p).address k) m pc m' ∧ Agree m' n := by
    rintro op rfl hop
    have hbounds : (if op.isBinary then 3 else 1) ≤ sp m ∧ sp m ≤ Memory.maxSize := by
      cases hbinary : op.isBinary <;> simp [Stack.stackCells, hbinary] at hstack ⊢ <;> omega
    obtain ⟨m', hperform, hmoves⟩ := moves_operation hop hinstalled hlabels hbounds.1 hbounds.2
    rw [← hnext] at hmoves
    exact ⟨_, _, _, by simp only [effect, hperform, Option.map_some], hmoves, .refl _⟩
  cases hlowers with
  | compare order => exact hoperation _ rfl (.compare order)
  | binary operation => exact hoperation _ rfl (.binary operation)
  | unary operation => exact hoperation _ rfl (.unary operation)
  | @push segment index place resolves =>
    simp only [Stack.stackCells, List.forall_mem_cons] at hstack
    obtain ⟨w, hword, hmoves⟩ := resolves.moves_push (fun _ _ => rfl) hinstalled hreadable
      (fun cell _ hcell => (hsegment cell hcell).1) (entryCells_lt fun cell hcell => (hsegment cell hcell).1) (by decide) hstack.1.2
    rw [← hnext, pushed_eq w (by omega)] at hmoves
    exact ⟨_, _, _, by simp only [effect, hword, Option.map_some], hmoves, .refl _⟩
  | @pop segment index place resolves addressed =>
    simp only [Stack.stackCells, List.forall_mem_cons] at hstack
    have htop : (m 0 - 1).toNat = sp m - 1 := toNat_below (by omega)
    obtain ⟨cell, hcell, hmoves⟩ := resolves.moves_pop addressed (fun _ _ => rfl) hinstalled hreadable
      (fun cell _ hcell => (hsegment cell hcell).1) (entryCells_lt fun cell hcell => (hsegment cell hcell).1) (by decide)
      (htop ▸ hstack.1.2)
    rw [← hnext, popped, htop] at hmoves
    refine ⟨_, update (update m 0 (m 0 - 1)) cell (m (sp m - 1)), _, ?_, hmoves, ?_⟩
    · simp only [effect, hcell, Option.map_some]
    · exact ((((Agree.refl m).scratch (.inl rfl) _).update _ _).scratch (.inr rfl) _).update _ _
  | label names =>
    refine ⟨_, m, m, rfl, ?_, .refl m⟩
    rw [hnext]
    exact .refl
  | @goto name names =>
    obtain ⟨j, hj, hvalue⟩ := value_target h hclosed hk (.inl rfl) hfunction
    have hmoves : Moves rom Memory.maxSize _ m _ m := moves_goto hinstalled (hvalue ▸ h.address_lt j)
    rw [hvalue] at hmoves
    exact ⟨_, _, _, by simp only [effect, hj, Option.map_some], hmoves, .refl m⟩
  | @ifGoto name names =>
    simp only [Stack.stackCells, List.forall_mem_cons] at hstack
    obtain ⟨j, hj, hvalue⟩ := value_target h hclosed hk (.inr rfl) hfunction
    have hmoves := moves_ifGoto hinstalled (hvalue ▸ h.address_lt j) hstack.1.1 hstack.1.2
    rw [hvalue, ← hnext] at hmoves
    exact ⟨_, _, _, by simp only [effect, hj, Option.map_some], hmoves, .refl _⟩
  | @function name locals named nonneg =>
    have hmoves := moves_function hinstalled hstack (Nat.le_refl _)
    rw [← hnext] at hmoves
    exact ⟨_, _, _, rfl, hmoves, .refl _⟩
  | @call name arguments named nonneg =>
    obtain ⟨j, hj⟩ := Option.isSome_iff_exists.mp (hclosed k s.file _ hk rfl)
    obtain ⟨file', locals, hdeclared⟩ := Program.function_of_target? hj
    have hvalue := h.function hdeclared
    -- the label of the return address stands at the end of the block
    have hback := value_back hinstalled
    rw [← hnext] at hback
    have hnumber := number_of_readable (hreadable (Block.number (arguments + 5).toInt) (by simp [call_eq, transfer]))
    have hfirst := hstack (sp m) (List.mem_range'.mpr ⟨0, by omega, by omega⟩)
    have hlast := hstack (sp m + 4) (List.mem_range'.mpr ⟨4, by omega, by omega⟩)
    have hmoves := moves_call hinstalled (hvalue ▸ h.address_lt j) (hback ▸ h.address_lt (k + 1)) hnumber
      (toInt_add_of_nonneg nonneg (by decide) hnumber.1) hfirst.1 (by omega) (Nat.le_refl _)
    rw [hvalue, hback] at hmoves
    exact ⟨_, _, _, by simp only [effect, hj, Option.map_some], hmoves, .refl _⟩
  | «return» =>
    have hframe := hb.frame
    have htop := hstack (sp m - 1) (by simp [Stack.stackCells])
    have harg := hstack (arg m) (by simp [Stack.stackCells])
    have hapart : ∀ j, 1 ≤ j → j ≤ 4 → lcl m - j ≠ arg m := by
      intro j h1 h4 heq
      have hlow := (hframe 5 (by omega) (by omega)).1
      exact hb.result rfl (heq ▸ List.mem_range'.mpr ⟨4 - j, by omega, by omega⟩)
    obtain ⟨m', hmoves, hagree⟩ := moves_leave hinstalled hframe htop.1 htop.2 harg.1 harg.2 hapart (Nat.le_refl _)
    exact ⟨_, _, m', rfl, hmoves, hagree⟩

/-! ## Start-up code -/

theorem moves_bootstrap {j : Nat} {file : Bytes} {locals : Int64} (h : Linked true p rom)
    (hj : p[j]? = some (file, .function Writer.entryPoint locals)) :
    Moves rom Memory.maxSize 0 m ((linkage true p).address j)
      (Stack.enter ((linkage true p).address 0).toUInt16 0 (update m 0 256)) := by
  obtain ⟨back, hblock⟩ : ∃ back, Operation.bootstrap.block {} = Block.resetStack ++ Block.call Writer.entryPoint back 0 :=
    ⟨_, Operation.block_of_lower (Operation.lower_bootstrap {})⟩
  have hcode : ∀ q, programCode true q =
      [] ++ (Block.resetStack ++ Block.call Writer.entryPoint back 0) ++ code (Operation.bootstrap.after {}) (commandOps q) :=
    fun q => congrArg (· ++ _) hblock
  have hinstalled := Assembly.installed_of_words h.words h.nodup (fun name hname => h.free hname) (hcode p)
  obtain ⟨hreset, hcall⟩ := (Assembly.installed_append _ _).mp hinstalled
  have hvalue := h.function hj
  have hback : symbolValue (programCode true p) back = (linkage true p).address 0 := by
    show _ = size (programCode true [])
    rw [value_back hcall, hcode []]
    simp [commandOps, code, trace]
  have hnumber : (0 : Int) ≤ 256 ∧ (256 : Int) ≤ Assembly.maxNumber := by decide
  have hword : Word.ofInt 256 = 256 := by decide
  have hstart : Moves rom Memory.maxSize 0 m (0 + size Block.resetStack) (update m 0 256) :=
    .straight hreset fun a d => by simp [Block.resetStack, hnumber, hword, Memory.maxSize]
  have hsp : sp (update m 0 256) = 256 := by simp [sp]
  have henter := moves_call hcall (hvalue ▸ h.address_lt j) (hback ▸ h.address_lt 0) (by decide) (by decide)
    (m := update m 0 256) (by omega) (by rw [hsp]; decide) (Nat.le_refl _)
  rw [hvalue, hback] at henter
  exact hstart.trans henter

/-! ## Runs -/

/-- The computer runs the program of `rom`, is at the address of a state and holds its memory, apart from cells 13 and 14. -/
structure Follows (rom : Array Instruction) (s : Nat × Cells) (c : Computer) : Prop where
  rom : c.rom = rom
  pc : c.pc = s.1
  size : c.ram.size = Memory.maxSize
  keyboard : c.keyboard = none
  cells : Agree c.ram.read s.2

theorem Follows.moves {c : Computer} {s s' : Nat × Cells} {m' : Cells} (hc : Follows rom s c)
    (hmoves : Moves rom Memory.maxSize s.1 c.ram.read s'.1 m') (hagree : Agree m' s'.2) : ∃ c', c.Reaches c' ∧ Follows rom s' c' := by
  obtain ⟨c', a', d', hreaches, hshows⟩ := hmoves c c.a c.d
    ⟨hc.rom, hc.pc, hc.size, hc.keyboard, rfl, rfl, rfl⟩
  refine ⟨c', hreaches, hshows.rom, hshows.pc, hshows.size, hshows.keyboard, fun i hi h13 h14 => ?_⟩
  rw [hshows.cells]
  exact hagree i hi h13 h14

theorem follows_step {c : Computer} {s s' : Nat × Cells} (h : Linked bootstrap p rom) (hclosed : p.Closed)
    (hstep : Stack.Step (linkage bootstrap p) p s s') (hc : Follows rom s c) :
    ∃ c', c.Reaches c' ∧ Follows rom s' c' := by
  obtain ⟨k, file, command, hk, haddress, hb, heffect⟩ := hstep
  -- the command sees the memory of the computer, which differs in cells that it does not look at
  obtain ⟨pc, n, m', heffect', hmoves, hagree⟩ := moves_command h hclosed hk (hb.agree hc.cells.symm)
  obtain ⟨n', heffect'', hagree'⟩ := Stack.effect_agree hc.cells (hb.agree hc.cells.symm) heffect'
  obtain rfl : s' = (pc, n') := Option.some.inj (heffect.symm.trans heffect'')
  rw [haddress] at hmoves
  exact hc.moves hmoves (hagree.trans hagree')

theorem follows_run {c : Computer} {s s' : Nat × Cells} (h : Linked bootstrap p rom) (hclosed : p.Closed)
    (hrun : Stack.Run (linkage bootstrap p) p s s') (hc : Follows rom s c) : ∃ c', c.Reaches c' ∧ Follows rom s' c' := by
  induction hrun with
  | refl => exact ⟨c, .refl, hc⟩
  | tail hrun hstep ih =>
    obtain ⟨c₁, hreaches, hc₁⟩ := ih
    obtain ⟨c₂, hreaches', hc₂⟩ := follows_step h hclosed hstep hc₁
    exact ⟨c₂, hreaches.trans hreaches', hc₂⟩

/-- Built and assembled programs do on the computer what their commands mean, if files are identifiers, every branch leads to a
label or a function of the program, no function has the name of a static variable that is used, and there are fewer than
32768 instructions. The text is the code of the commands in order, and the static variables have cells of their own.
A computer at the address of a command, with all of its memory and without a keyboard, gets to the address and the memory
that the command leads to, apart from cells 13 and 14, if the cells that the command uses are in bounds. So it follows runs of any
length; and the start-up code gets it to the entry point. -/
theorem assembled_program_follows_commands {bootstrap : Bool} {files : List (Bytes × Bytes)} {text name : Bytes}
    {rom : Array Instruction} (hbuild : build bootstrap files = .ok text)
    (hassemble : Assembly.assemble name (Source.ofBytes text) = .ok rom) (hsmall : rom.size < Memory.maxSize)
    (hfiles : ∀ file ∈ files, isIdentifier (unitName file.1) = true) (hclosed : (programOf files).Closed)
    (hfree : ∀ x ∈ (programOf files).statics, staticSymbol x.1 x.2 ∉ (programOf files).functions) :
    let p := programOf files
    let link := linkage bootstrap p
    (text = (programCode bootstrap p).text ∧ ∀ k, programCode bootstrap (p.take k) <+: programCode bootstrap p) ∧
    (∀ x ∈ p.statics, 16 ≤ link.static x.1 x.2 ∧
      ∀ y ∈ p.statics, link.static x.1 x.2 = link.static y.1 y.2 → x = y) ∧
    (∀ k file c, p[k]? = some (file, c) → ∀ machine : Computer, machine.rom = rom → machine.pc = link.address k →
      machine.ram.size = Memory.maxSize → machine.keyboard = none → InBounds link file machine.ram.read c →
      ∃ s, effect link p k file machine.ram.read c = some s ∧
        ∃ machine', machine.Reaches machine' ∧ Follows rom s machine') ∧
    (∀ s s' machine, Stack.Run link p s s' → Follows rom s machine →
      ∃ machine', machine.Reaches machine' ∧ Follows rom s' machine') ∧
    (bootstrap = true → ∀ j file locals, p[j]? = some (file, .function Writer.entryPoint locals) →
      ∀ machine : Computer, Follows rom (0, machine.ram.read) machine → ∃ machine', machine.Reaches machine' ∧
        Follows rom (link.address j, Stack.enter (link.address 0).toUInt16 0 (update machine.ram.read 0 256)) machine') := by
  have h := linked_of_build hbuild hassemble hfiles hsmall
  refine ⟨⟨(build_eq_ok hbuild).2, programCode_take_isPrefix _ _⟩, fun x hx => h.static_inj hfree hx, ?_, ?_, ?_⟩
  · intro k file c hk machine hrom hpc hsize hkeyboard hb
    obtain ⟨pc, n, m', heffect, hmoves, hagree⟩ := moves_command h hclosed hk hb
    have hfollows : Follows rom ((linkage bootstrap (programOf files)).address k, machine.ram.read) machine :=
      ⟨hrom, hpc, hsize, hkeyboard, .refl _⟩
    exact ⟨(pc, n), heffect, hfollows.moves hmoves hagree⟩
  · intro s s' machine hrun hfollows
    exact follows_run h hclosed hrun hfollows
  · rintro rfl j file locals hj machine hfollows
    exact hfollows.moves (moves_bootstrap h hj) (.refl _)

/-- A function that pushes a static variable and then loops: the computer executes the push. -/
theorem assembled_program_follows_commands_loop :
    let files := [(ascii "Main.vm", ascii "function Main.main 0\npush static 3\nlabel LOOP\ngoto LOOP\n")]
    let link := linkage false (programOf files)
    ∃ text rom, build false files = .ok text ∧ Assembly.assemble [] (Source.ofBytes text) = .ok rom ∧
      rom.size < Memory.maxSize ∧ (programOf files).Closed ∧
      (∀ x ∈ (programOf files).statics, staticSymbol x.1 x.2 ∉ (programOf files).functions) ∧
      let machine : Computer := { rom, ram := (Memory.blank Memory.maxSize).write 0 300 }
      ∃ machine', machine.Reaches machine' ∧
        Follows rom (link.address 2, Stack.push machine.ram.read (machine.ram.read (link.static (ascii "Main") 3))) machine' := by
  intro files link
  have hprogram : programOf files = [(ascii "Main", .function (ascii "Main.main") 0), (ascii "Main", .push .static 3),
      (ascii "Main", .label (ascii "LOOP")), (ascii "Main", .goto (ascii "LOOP"))] := by
    decide +kernel
  obtain ⟨text, hbuild⟩ : ∃ text, build false files = .ok text := by
    have hok : (build false files).isOk = true := by decide +kernel
    cases hresult : build false files with
    | ok text => exact ⟨text, rfl⟩
    | error e => rw [hresult] at hok; exact Bool.noConfusion hok
  obtain ⟨hlowerable, htext⟩ := build_eq_ok hbuild
  rw [hprogram] at hlowerable htext
  obtain ⟨rom, hassemble, hsize⟩ : ∃ rom, Assembly.assemble [] (Source.ofBytes text) = .ok rom ∧
      rom.size = size (code {} (operations false (programOf files))) := by
    rw [htext, hprogram]
    refine assemble_text [] (readable_code hlowerable ?_ (by decide +kernel) (by decide +kernel)) (by decide +kernel)
      (by decide +kernel) (by decide +kernel)
    intro name hname
    obtain ⟨x, hx, rfl⟩ := mem_operations hname
    revert x
    decide +kernel
  have hsmall : rom.size < Memory.maxSize := by
    rw [hsize, hprogram]
    decide +kernel
  have hclosed : (programOf files).Closed := by
    rw [hprogram]
    decide +kernel
  have hfree : ∀ x ∈ (programOf files).statics, staticSymbol x.1 x.2 ∉ (programOf files).functions := by
    rw [hprogram]
    decide +kernel
  refine ⟨text, rom, hbuild, hassemble, hsmall, hclosed, hfree, ?_⟩
  obtain ⟨-, -, hstep, -⟩ := assembled_program_follows_commands hbuild hassemble hsmall (by decide +kernel) hclosed hfree
  have hk : (programOf files)[1]? = some (ascii "Main", .push .static 3) := by rw [hprogram]; rfl
  have hcell : (linkage false (programOf files)).static (ascii "Main") 3 = 16 := by
    rw [hprogram]
    decide +kernel
  have haddress : (linkage false (programOf files)).address 1 = 0 := by
    rw [hprogram]
    decide +kernel
  have hsp : sp ((Memory.blank Memory.maxSize).write 0 300).read = 300 := by
    rw [sp, Memory.read_write (by decide), Function.update_self]
    rfl
  have hbounds : InBounds (linkage false (programOf files)) (ascii "Main") ((Memory.blank Memory.maxSize).write 0 300).read
      (.push .static 3) := by
    refine ⟨?_, ?_, by simp⟩
    · rw [Stack.stackCells, List.forall_mem_singleton, hsp]
      decide
    · intro i hi
      obtain rfl := Option.some.inj hi
      exact hcell ▸ by decide
  obtain ⟨s, hs, hreaches⟩ := hstep 1 _ _ hk { rom, ram := (Memory.blank Memory.maxSize).write 0 300 } rfl
    (congrArg Int.ofNat haddress.symm) rfl rfl hbounds
  obtain rfl := Option.some.inj hs
  exact hreaches

end HackPlatform.Code
