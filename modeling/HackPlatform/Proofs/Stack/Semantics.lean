import Mathlib.Logic.Function.Basic
import Mathlib.Logic.Relation
import HackPlatform.Stack.Command
import HackPlatform.Proofs.Machine.Meaning

/-!
# What stack programs mean

The stack machine keeps its state in memory: cell 0 holds the address of the first free cell above the stack, and cells 1 to 4 hold
where the segments local, argument, this and that start. `effect` says where a command leads and what it leaves in memory, for a
`Linkage` that gives the addresses of commands and of static variables.

A command can be executed if the cells that it uses exist and are none of the registers (`InBounds`). Cells 13 and 14 do not
belong to the stack machine: commands neither look at them nor say what is in them (`effect_agree`).
-/

namespace HackPlatform.Stack

open Function (update)

/-! ## Programs -/

/-- A program: its commands in order, each with the name of the file that it stands in. -/
abbrev Program := List (Bytes × Command)

def Command.function? : Command → Option Bytes
  | function name _ => some name
  | _ => none

/-- The index of the static variable that a command uses. -/
def Command.static? : Command → Option Nat
  | push .static index | pop .static index => some index.toInt.toNat
  | _ => none

/-- Does the command lead to a label or a function? -/
def Command.isBranch : Command → Bool
  | goto _ | ifGoto _ | call _ _ => true
  | _ => false

namespace Program

def functions (p : Program) : List Bytes := p.filterMap fun x => x.2.function?

/-- The static variables that a program uses: their files and indices. -/
def statics (p : Program) : List (Bytes × Nat) := p.filterMap fun x => x.2.static?.map fun index => (x.1, index)

/-- The function that a command belongs to: the last one declared before it, in whatever file. -/
def functionAt (p : Program) (k : Nat) : Option Bytes := (functions (p.take k)).getLast?

/-- Where the labels around a command belong: to its function, or to its file if there is none. -/
def ownerAt (p : Program) (k : Nat) (file : Bytes) : Bytes ⊕ Bytes :=
  match p.functionAt k with
  | some function => .inl function
  | none => .inr file

/-- Does a command declare a label? -/
def declaresAt (p : Program) (owner : Bytes ⊕ Bytes) (name : Bytes) (k : Nat) : Bool :=
  match p[k]? with
  | some (file, .label other) => other = name ∧ p.ownerAt k file = owner
  | _ => false

/-- The command that a branch leads to. -/
def target? (p : Program) (k : Nat) (file : Bytes) : Command → Option Nat
  | .goto name | .ifGoto name => (List.range p.length).find? (p.declaresAt (p.ownerAt k file) name)
  | .call name _ => p.findIdx? fun x => x.2.function? = some name
  | _ => none

/-- Every branch leads to a label or a function of the program. -/
def Closed (p : Program) : Prop :=
  ∀ k file c, p[k]? = some (file, c) → c.isBranch = true → (p.target? k file c).isSome = true

instance (p : Program) : Decidable p.Closed :=
  decidable_of_iff (∀ x ∈ p.zipIdx, x.1.2.isBranch = true → (p.target? x.2 x.1.1 x.1.2).isSome = true) <| by
    constructor
    · intro h k file c hk
      exact h ((file, c), k) (List.mem_zipIdx_iff_getElem?.mpr hk)
    · intro h x hx
      exact h x.2 x.1.1 x.1.2 (List.mem_zipIdx_iff_getElem?.mp hx)

theorem declares_of_declaresAt {p : Program} {owner : Bytes ⊕ Bytes} {name : Bytes} {k : Nat}
    (h : p.declaresAt owner name k = true) : ∃ file, p[k]? = some (file, .label name) ∧ p.ownerAt k file = owner := by
  unfold declaresAt at h
  split at h
  · rename_i file other hk
    obtain ⟨rfl, howner⟩ := of_decide_eq_true h
    exact ⟨file, hk, howner⟩
  · exact Bool.noConfusion h

theorem label_of_target? {p : Program} {k j : Nat} {file name : Bytes} {c : Command} (hc : c = .goto name ∨ c = .ifGoto name)
    (h : p.target? k file c = some j) : ∃ file', p[j]? = some (file', .label name) ∧ p.ownerAt j file' = p.ownerAt k file := by
  have hfind : (List.range p.length).find? (p.declaresAt (p.ownerAt k file) name) = some j := by
    rcases hc with rfl | rfl <;> exact h
  exact declares_of_declaresAt (List.find?_some hfind)

theorem exists_of_mem_functions {p : Program} {name : Bytes} (h : name ∈ p.functions) :
    ∃ (k : Nat) (file : Bytes) (locals : Int64), p[k]? = some (file, .function name locals) := by
  obtain ⟨⟨file, c⟩, hmem, hc⟩ := List.mem_filterMap.mp h
  obtain ⟨k, hk⟩ := List.mem_iff_getElem?.mp hmem
  cases c with
  | function other locals =>
    obtain rfl := Option.some.inj hc
    exact ⟨k, file, locals, hk⟩
  | _ => exact absurd hc (by simp [Command.function?])

theorem mem_functions_of_functionAt {p : Program} {k : Nat} {name : Bytes} (h : p.functionAt k = some name) :
    name ∈ p.functions :=
  ((List.take_sublist k p).filterMap _).subset (List.mem_of_getLast? h)

theorem function_of_target? {p : Program} {k j : Nat} {file name : Bytes} {arguments : Int64}
    (h : p.target? k file (.call name arguments) = some j) : ∃ file' locals, p[j]? = some (file', .function name locals) := by
  obtain ⟨hj, hname, -⟩ := List.findIdx?_eq_some_iff_getElem.mp h
  have hfunction : p[j].2.function? = some name := of_decide_eq_true hname
  refine ⟨p[j].1, ?_⟩
  cases hc : p[j].2 with
  | function other locals =>
    rw [hc] at hfunction
    obtain rfl := Option.some.inj hfunction
    exact ⟨locals, by rw [List.getElem?_eq_getElem hj, ← hc]⟩
  | _ => simp [hc, Command.function?] at hfunction

end Program

/-! ## Memory -/

/-- The first free cell above the stack. -/
def sp (m : Cells) : Nat := (m 0).toNat

/-- The first cell of the segment local, which is the first one above the frame. -/
def lcl (m : Cells) : Nat := (m 1).toNat

/-- The first cell of the segment argument. -/
def arg (m : Cells) : Nat := (m 2).toNat

def push (m : Cells) (w : Word) : Cells := update (update m (sp m) w) 0 (m 0 + 1)

/-- Where a program is: the addresses of its commands in instruction memory, and those of its static variables in memory. -/
structure Linkage where
  address : Nat → Nat
  static : Bytes → Nat → Nat

/-- The cell of an entry of a segment. -/
def Segment.cell? (link : Linkage) (file : Bytes) (m : Cells) (index : Int64) : Segment → Option Nat
  | .local => some (m 1 + Word.ofInt index.toInt).toNat
  | argument => some (m 2 + Word.ofInt index.toInt).toNat
  | this => some (m 3 + Word.ofInt index.toInt).toNat
  | that => some (m 4 + Word.ofInt index.toInt).toNat
  | temp => some (5 + index.toInt.toNat)
  | pointer => some (3 + index.toInt.toNat)
  | static => some (link.static file index.toInt.toNat)
  | constant | unknown _ => none

/-- The register that holds the base of a segment, where one does. -/
def Segment.register? : Segment → Option Nat
  | .local => some 1
  | argument => some 2
  | this => some 3
  | that => some 4
  | temp | pointer | static | constant | unknown _ => none

theorem Segment.range_of_register? {segment : Segment} {register : Nat} (h : segment.register? = some register) :
    0 < register ∧ register < 5 := by
  cases segment <;> simp [register?] at h <;> omega

def Segment.word? (link : Linkage) (file : Bytes) (m : Cells) (index : Int64) (segment : Segment) : Option Word :=
  if segment = .constant then some (Word.ofInt index.toInt) else (segment.cell? link file m index).map m

/-! ## Commands -/

/-- What a comparison leaves. -/
def truth (b : Bool) : Word := if b then -1 else 0

/-- The value of an operation on two words, the lower one first. -/
def Op.binary? : Op → Option (Word → Word → Word)
  | add => some fun x y => x + y
  | sub => some fun x y => x - y
  | and => some fun x y => x &&& y
  | or => some fun x y => x ||| y
  | eq => some fun x y => truth (x.signed = y.signed)
  | lt => some fun x y => truth (x.signed < y.signed)
  | gt => some fun x y => truth (y.signed < x.signed)
  | neg | not | unknown _ => none

/-- The value of an operation on one word. -/
def Op.unary? : Op → Option (Word → Word)
  | neg => some fun x => -x
  | not => some fun x => ~~~x
  | _ => none

/-- What an operation leaves in memory. -/
def Op.perform? (m : Cells) (op : Op) : Option Cells :=
  match op.binary? with
  | some f => some (update (update m (sp m - 2) (f (m (sp m - 2)) (m (sp m - 1)))) 0 (m 0 - 1))
  | none => op.unary?.map fun f => update m (sp m - 1) (f (m (sp m - 1)))

/-- Enters a function: pushes the return address and the segment pointers of the caller. -/
def enter (back : Word) (arguments : Int64) (m : Cells) : Cells :=
  let m' := [back, m 1, m 2, m 3, m 4].foldl push m
  update (update m' 2 (m 0 - Word.ofInt arguments.toInt)) 1 (m' 0)

def reserve (locals : Nat) (m : Cells) : Cells :=
  update (fun i => if sp m ≤ i ∧ i < sp m + locals then 0 else m i) 0 (m 0 + locals.toUInt16)

/-- Leaves a function: the result takes the place of the first argument, and the caller has its segment pointers back. -/
def leave (m : Cells) : Cells :=
  let m' := update (update m (arg m) (m (sp m - 1))) 0 (m 2 + 1)
  update (update (update (update m' 4 (m (lcl m - 1))) 3 (m (lcl m - 2))) 2 (m (lcl m - 3))) 1 (m (lcl m - 4))

/-- The address that a command leads to, and what it leaves in memory. -/
def effect (link : Linkage) (p : Program) (k : Nat) (file : Bytes) (m : Cells) (c : Command) : Option (Nat × Cells) :=
  match c with
  | .arithmetic op => (op.perform? m).map fun m' => (link.address (k + 1), m')
  | .push segment index => (segment.word? link file m index).map fun w => (link.address (k + 1), push m w)
  | .pop segment index => (segment.cell? link file m index).map fun i =>
      (link.address (k + 1), update (update m 0 (m 0 - 1)) i (m (sp m - 1)))
  | .label _ => some (link.address (k + 1), m)
  | .goto _ => (p.target? k file c).map fun j => (link.address j, m)
  | .ifGoto _ => (p.target? k file c).map fun j =>
      (if m (sp m - 1) = 0 then link.address (k + 1) else link.address j, update m 0 (m 0 - 1))
  | .function _ locals => some (link.address (k + 1), reserve locals.toInt.toNat m)
  | .call _ arguments => (p.target? k file c).map fun j =>
      (link.address j, enter (link.address (k + 1)).toUInt16 arguments m)
  | .return => some ((m (lcl m - 5)).toNat, leave m)
  | .unknown _ => none

/-- The cells of the stack and of the frame that a command uses. -/
def stackCells (m : Cells) : Command → List Nat
  | .arithmetic op => if op.isBinary then [sp m - 2, sp m - 1] else [sp m - 1]
  | .push _ _ => [sp m]
  | .pop _ _ | .ifGoto _ => [sp m - 1]
  | .function _ locals => List.range' (sp m) locals.toInt.toNat
  | .call _ _ => List.range' (sp m) 5
  | .return => [sp m - 1, arg m] ++ List.range' (lcl m - 5) 5
  | .label _ | .goto _ | .unknown _ => []

/-- The cell of a segment that a command uses. -/
def segmentCell? (link : Linkage) (file : Bytes) (m : Cells) : Command → Option Nat
  | .push segment index | .pop segment index => segment.cell? link file m index
  | _ => none

/-- A command finds what it uses in memory, outside of the registers that are not its own. -/
structure InBounds (link : Linkage) (file : Bytes) (m : Cells) (c : Command) : Prop where
  stack : ∀ i ∈ stackCells m c, 16 ≤ i ∧ i < Memory.maxSize
  segment : ∀ i ∈ segmentCell? link file m c, i < Memory.maxSize ∧ i ∉ [0, 13, 14]
  result : c = .return → arg m ∉ List.range' (lcl m - 4) 4

theorem InBounds.frame {link : Linkage} {file : Bytes} {m : Cells} (h : InBounds link file m .return) (j : Nat) (h1 : 1 ≤ j)
    (h5 : j ≤ 5) : 16 ≤ lcl m - j ∧ lcl m - j < Memory.maxSize := by
  have hmem : ∀ i < 5, lcl m - 5 + i ∈ stackCells m .return := fun i hi =>
    List.mem_append_right _ (List.mem_range'.mpr ⟨i, hi, by omega⟩)
  have hlow := (h.stack _ (hmem 0 (by omega))).1
  have hcell := h.stack _ (hmem (5 - j) (by omega))
  rwa [show lcl m - 5 + (5 - j) = lcl m - j by omega] at hcell

/-- A command in bounds leads from an address and memory to others. -/
def Step (link : Linkage) (p : Program) (s s' : Nat × Cells) : Prop :=
  ∃ k file c, p[k]? = some (file, c) ∧ link.address k = s.1 ∧ InBounds link file s.2 c ∧
    effect link p k file s.2 c = some s'

/-- Commands in bounds lead one after another from an address and memory to others. -/
def Run (link : Linkage) (p : Program) : Nat × Cells → Nat × Cells → Prop := Relation.ReflTransGen (Step link p)

/-! ## Cells that are not looked at -/

/-- The memories hold the same, apart from cells 13 and 14. -/
def Agree (m m' : Cells) : Prop := ∀ i < Memory.maxSize, i ≠ 13 → i ≠ 14 → m i = m' i

namespace Agree

variable {m m' m'' : Cells}

theorem refl (m : Cells) : Agree m m := fun _ _ _ _ => rfl

theorem trans (h : Agree m m') (h' : Agree m' m'') : Agree m m'' :=
  fun i hi h13 h14 => (h i hi h13 h14).trans (h' i hi h13 h14)

theorem symm (h : Agree m m') : Agree m' m := fun i hi h13 h14 => (h i hi h13 h14).symm

theorem update (h : Agree m m') (i : Nat) (w : Word) : Agree (Function.update m i w) (Function.update m' i w) := by
  intro j hj h13 h14
  by_cases hji : j = i
  · rw [hji, Function.update_self, Function.update_self]
  · rw [Function.update_of_ne hji, Function.update_of_ne hji]
    exact h j hj h13 h14

theorem scratch (h : Agree m m') {i : Nat} (hi : i = 13 ∨ i = 14) (w : Word) : Agree (Function.update m i w) m' := by
  intro j hj h13 h14
  rw [Function.update_of_ne (by omega)]
  exact h j hj h13 h14

theorem register (h : Agree m m') {i : Nat} (hi : i < 5) : m i = m' i :=
  h i (Nat.lt_trans hi (by decide)) (by omega) (by omega)

theorem cell (h : Agree m m') {i : Nat} (hi : 16 ≤ i ∧ i < Memory.maxSize) : m i = m' i :=
  h i hi.2 (by omega) (by omega)

theorem push (h : Agree m m') (w : Word) : Agree (Stack.push m w) (Stack.push m' w) := by
  have h0 := h.register (i := 0) (by omega)
  rw [Stack.push, Stack.push, sp, sp, h0]
  exact (h.update _ _).update _ _

theorem foldl_push (h : Agree m m') (ws : List Word) : Agree (ws.foldl Stack.push m) (ws.foldl Stack.push m') := by
  induction ws generalizing m m' with
  | nil => exact h
  | cons w rest ih => exact ih (h.push w)

theorem cell? (h : Agree m m') (link : Linkage) (file : Bytes) (index : Int64) (segment : Segment) :
    segment.cell? link file m index = segment.cell? link file m' index := by
  cases segment <;> simp [Segment.cell?, h.register (i := 1), h.register (i := 2), h.register (i := 3), h.register (i := 4)]

theorem stackCells (h : Agree m m') (c : Command) : Stack.stackCells m c = Stack.stackCells m' c := by
  cases c <;> simp [Stack.stackCells, sp, lcl, arg, h.register (i := 0), h.register (i := 1), h.register (i := 2)]

theorem segmentCell? (h : Agree m m') (link : Linkage) (file : Bytes) (c : Command) :
    Stack.segmentCell? link file m c = Stack.segmentCell? link file m' c := by
  cases c <;> simp [Stack.segmentCell?, h.cell? link file]

end Agree

theorem InBounds.agree {link : Linkage} {file : Bytes} {m m' : Cells} {c : Command} (h : InBounds link file m c)
    (hm : Agree m m') : InBounds link file m' c := by
  obtain ⟨hstack, hsegment, hresult⟩ := h
  rw [hm.stackCells] at hstack
  rw [hm.segmentCell?] at hsegment
  rw [arg, lcl, hm.register (by omega : 2 < 5), hm.register (by omega : 1 < 5)] at hresult
  exact ⟨hstack, hsegment, hresult⟩

theorem Op.isBinary_of_binary? {op : Op} {f : Word → Word → Word} (h : op.binary? = some f) : op.isBinary = true := by
  cases op <;> simp [binary?, isBinary] at h ⊢

theorem Op.isBinary_of_unary? {op : Op} {f : Word → Word} (h : op.unary? = some f) : op.isBinary = false := by
  cases op <;> simp [unary?, isBinary] at h ⊢

section

variable {link : Linkage} {p : Program} {k : Nat} {file : Bytes} {m m' n : Cells} {c : Command}

theorem perform?_agree {op : Op} (hm : Agree m m') (hb : InBounds link file m (.arithmetic op))
    (h : op.perform? m = some n) : ∃ n', op.perform? m' = some n' ∧ Agree n n' := by
  have h0 : m 0 = m' 0 := hm.register (by omega)
  have hcell : ∀ i ∈ stackCells m (.arithmetic op), m i = m' i := fun i hi => hm.cell (hb.stack i hi)
  unfold Op.perform? at h ⊢
  cases hf : op.binary? with
  | some f =>
    simp only [stackCells, Op.isBinary_of_binary? hf, if_true, List.forall_mem_cons] at hcell
    simp only [hf, Option.some.injEq] at h
    refine ⟨_, rfl, ?_⟩
    rw [← h, hcell.1, hcell.2.1, sp, sp, h0]
    exact (hm.update _ _).update _ _
  | none =>
    simp only [hf] at h
    obtain ⟨f, hg, rfl⟩ := Option.map_eq_some_iff.mp h
    simp only [stackCells, Op.isBinary_of_unary? hg, Bool.false_eq_true, if_false, List.forall_mem_cons] at hcell
    refine ⟨_, Option.map_eq_some_iff.mpr ⟨f, hg, rfl⟩, ?_⟩
    rw [hcell.1, sp, sp, h0]
    exact hm.update _ _

theorem word?_agree {segment : Segment} {index : Int64} (hm : Agree m m')
    (hb : InBounds link file m (.push segment index)) :
    segment.word? link file m index = segment.word? link file m' index := by
  unfold Segment.word?
  split
  · rfl
  · rw [← hm.cell?]
    cases hcell : segment.cell? link file m index with
    | none => rfl
    | some i =>
      obtain ⟨hi, hne⟩ := hb.segment i hcell
      simp only [List.mem_cons, List.not_mem_nil, or_false, not_or] at hne
      rw [Option.map_some, Option.map_some, hm i hi hne.2.1 hne.2.2]

theorem enter_agree (hm : Agree m m') (back : Word) (arguments : Int64) :
    Agree (enter back arguments m) (enter back arguments m') := by
  have hframe := hm.foldl_push [back, m' 1, m' 2, m' 3, m' 4]
  unfold enter
  rw [hm.register (by omega : 0 < 5), hm.register (by omega : 1 < 5), hm.register (by omega : 2 < 5),
    hm.register (by omega : 3 < 5), hm.register (by omega : 4 < 5)]
  simp only [hframe.register (by omega : 0 < 5)]
  exact (hframe.update _ _).update _ _

theorem reserve_agree (hm : Agree m m') (locals : Nat) : Agree (reserve locals m) (reserve locals m') := by
  unfold reserve sp
  rw [hm.register (by omega : 0 < 5)]
  refine Agree.update (fun i hi h13 h14 => ?_) _ _
  split
  · rfl
  · exact hm i hi h13 h14

theorem leave_agree (hm : Agree m m') (hb : InBounds link file m .return) : Agree (leave m) (leave m') := by
  -- what is read: the frame, the result and the registers
  have hback : ∀ j, 1 ≤ j → j ≤ 4 → m (lcl m - j) = m' (lcl m - j) := fun j h1 h4 =>
    hm.cell (hb.frame j h1 (by omega))
  have hresult : m (sp m - 1) = m' (sp m - 1) := hm.cell (hb.stack _ (by simp [stackCells]))
  unfold leave
  simp only [hresult, hback 1, hback 2, hback 3, hback 4, Nat.reduceLeDiff, Nat.le_refl]
  simp only [sp, lcl, arg, hm.register (by omega : 0 < 5), hm.register (by omega : 1 < 5), hm.register (by omega : 2 < 5)]
  exact (((((hm.update _ _).update _ _).update _ _).update _ _).update _ _).update _ _

/-- Commands do not look at cells 13 and 14. -/
theorem effect_agree {pc : Nat} (hm : Agree m m') (hb : InBounds link file m c)
    (h : effect link p k file m c = some (pc, n)) : ∃ n', effect link p k file m' c = some (pc, n') ∧ Agree n n' := by
  have h0 : m 0 = m' 0 := hm.register (by omega)
  have hsp : sp m = sp m' := by rw [sp, sp, h0]
  cases c with
  | arithmetic op =>
    obtain ⟨n₁, hn₁, hpair⟩ := Option.map_eq_some_iff.mp h
    obtain ⟨rfl, rfl⟩ := Prod.mk.inj hpair
    obtain ⟨n', hn', hagree⟩ := perform?_agree hm hb hn₁
    exact ⟨n', Option.map_eq_some_iff.mpr ⟨n', hn', rfl⟩, hagree⟩
  | push segment index =>
    obtain ⟨w, hw, hpair⟩ := Option.map_eq_some_iff.mp h
    obtain ⟨rfl, rfl⟩ := Prod.mk.inj hpair
    rw [word?_agree hm hb] at hw
    exact ⟨_, Option.map_eq_some_iff.mpr ⟨w, hw, rfl⟩, hm.push w⟩
  | pop segment index =>
    obtain ⟨i, hi, hpair⟩ := Option.map_eq_some_iff.mp h
    obtain ⟨rfl, rfl⟩ := Prod.mk.inj hpair
    have hvalue : m (sp m - 1) = m' (sp m - 1) := hm.cell (hb.stack _ (by simp [stackCells]))
    rw [hm.cell?] at hi
    refine ⟨_, Option.map_eq_some_iff.mpr ⟨i, hi, rfl⟩, ?_⟩
    rw [hvalue, hsp, h0]
    exact (hm.update _ _).update _ _
  | label name =>
    obtain ⟨rfl, rfl⟩ := Prod.mk.inj (Option.some.inj h)
    exact ⟨m', rfl, hm⟩
  | goto name =>
    obtain ⟨j, hj, hpair⟩ := Option.map_eq_some_iff.mp h
    obtain ⟨rfl, rfl⟩ := Prod.mk.inj hpair
    exact ⟨m', Option.map_eq_some_iff.mpr ⟨j, hj, rfl⟩, hm⟩
  | ifGoto name =>
    obtain ⟨j, hj, hpair⟩ := Option.map_eq_some_iff.mp h
    obtain ⟨rfl, rfl⟩ := Prod.mk.inj hpair
    have hvalue : m (sp m - 1) = m' (sp m - 1) := hm.cell (hb.stack _ (by simp [stackCells]))
    refine ⟨update m' 0 (m' 0 - 1), Option.map_eq_some_iff.mpr ⟨j, hj, ?_⟩, ?_⟩
    · rw [hvalue, hsp]
    · rw [h0]
      exact hm.update _ _
  | function name locals =>
    obtain ⟨rfl, rfl⟩ := Prod.mk.inj (Option.some.inj h)
    exact ⟨_, rfl, reserve_agree hm _⟩
  | call name arguments =>
    obtain ⟨j, hj, hpair⟩ := Option.map_eq_some_iff.mp h
    obtain ⟨rfl, rfl⟩ := Prod.mk.inj hpair
    exact ⟨_, Option.map_eq_some_iff.mpr ⟨j, hj, rfl⟩, enter_agree hm _ _⟩
  | «return» =>
    obtain ⟨rfl, rfl⟩ := Prod.mk.inj (Option.some.inj h)
    have hback : m (lcl m - 5) = m' (lcl m - 5) := hm.cell (hb.frame 5 (by omega) (by omega))
    have hlcl : lcl m = lcl m' := by rw [lcl, lcl, hm.register (by omega : 1 < 5)]
    exact ⟨_, by rw [effect, ← hlcl, hback], leave_agree hm hb⟩
  | unknown code => exact absurd h (by simp [effect])

end

end HackPlatform.Stack
