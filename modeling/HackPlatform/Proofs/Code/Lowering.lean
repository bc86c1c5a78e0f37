import HackPlatform.Proofs.Assembly.Backpatch
import HackPlatform.Proofs.Code.Label

/-!
# The blocks of commands

`Lowers s c block s'` says which block a command has in a scope and which scope it leaves, one rule a kind of command. A
command that is not refused has the block of its rule (`lowers_of_lower`), so what is said of blocks below is said by cases
on the rules: which labels a block declares (`Lowers.labelNames_eq`) and of which statements it is made (`Lowers.parts`).
-/

namespace HackPlatform.Code

open Assembly (Statement Comp labelNames)
open Stack (Command Op Segment)

/-! ## Rules -/

def Scope.labelOf (s : Scope) (name : Bytes) : Label :=
  match s.function with
  | some function => .inFunction function name
  | none => .inFile s.file name

def Scope.count (s : Scope) : Ordering → Nat
  | .eq => s.eqCount
  | .lt => s.ltCount
  | .gt => s.gtCount

def Scope.counted (s : Scope) : Ordering → Scope
  | .eq => { s with eqCount := s.eqCount + 1 }
  | .lt => { s with ltCount := s.ltCount + 1 }
  | .gt => { s with gtCount := s.gtCount + 1 }

def test : Ordering → Op
  | .eq => .eq
  | .lt => .lt
  | .gt => .gt

def Scope.backOf (s : Scope) (callee : Bytes) : Label := .back (s.function.getD callee) s.calls

/-- Can a name be made a label? -/
def Scope.Names (s : Scope) (name : Bytes) : Prop :=
  isIdentifier name = true ∧ (s.function = none → s.file ≠ [])

/-- The place of an entry of a segment. -/
structure Resolves (s : Scope) (segment : Segment) (index : Int64) (place : Block.Place) : Prop where
  found : s.place? segment = some place
  nonneg : 0 ≤ index.toInt
  constant : place = .immediate → index.toInt ≤ 32767
  static : segment = .static → s.file ≠ []

/-- The block of a command in a scope, and the scope after it. -/
inductive Lowers (s : Scope) : Command → Block → Scope → Prop where
  | compare (order : Ordering) :
      Lowers s (.arithmetic (test order)) ((comparison order).block (s.count order)) (s.counted order)
  | binary {op : Op} {comp : Comp}
      (operation : (op, comp) ∈ [(Op.add, Comp.dPlusM), (.sub, .mMinusD), (.and, .dAndM), (.or, .dOrM)]) :
      Lowers s (.arithmetic op) (Block.binary comp) s
  | unary {op : Op} {comp : Comp} (operation : (op, comp) ∈ [(Op.neg, Comp.negM), (.not, .notM)]) :
      Lowers s (.arithmetic op) (Block.unary comp) s
  | push {segment : Segment} {index : Int64} {place : Block.Place} (resolves : Resolves s segment index place) :
      Lowers s (.push segment index) (Block.push place index) s
  | pop {segment : Segment} {index : Int64} {place : Block.Place} (resolves : Resolves s segment index place)
      (addressed : place ≠ .immediate) : Lowers s (.pop segment index) (Block.pop place index) s
  | label {name : Bytes} (names : s.Names name) : Lowers s (.label name) [.label (s.labelOf name).symbol] s
  | goto {name : Bytes} (names : s.Names name) : Lowers s (.goto name) (Block.goto (s.labelOf name).symbol) s
  | ifGoto {name : Bytes} (names : s.Names name) : Lowers s (.ifGoto name) (Block.ifGoto (s.labelOf name).symbol) s
  | function {name : Bytes} {locals : Int64} (named : isIdentifier name = true) (nonneg : 0 ≤ locals.toInt) :
      Lowers s (.function name locals) (Block.function name locals.toInt.toNat) { s with function := some name }
  | call {name : Bytes} {arguments : Int64} (named : isIdentifier name = true) (nonneg : 0 ≤ arguments.toInt) :
      Lowers s (.call name arguments) (Block.call name (s.backOf name).symbol arguments) { s with calls := s.calls + 1 }
  | return : Lowers s .return Block.leave s

theorem label_eq_ok {s : Scope} {name symbol : Bytes} (h : s.label name = .ok symbol) :
    s.Names name ∧ symbol = (s.labelOf name).symbol := by
  unfold Scope.label at h
  unfold Scope.labelOf
  cases hname : isIdentifier name with
  | false => simp [hname] at h
  | true =>
    cases hfunction : s.function with
    | some function =>
      simp only [hname, hfunction, Bool.not_true, Bool.false_eq_true, if_false, Except.ok.injEq] at h
      exact ⟨⟨hname, by simp [hfunction]⟩, h.symm⟩
    | none =>
      by_cases hfile : s.file = []
      · simp [hname, hfunction, hfile] at h
      · have hempty : s.file.isEmpty = false := by simpa using hfile
        simp only [hname, hfunction, hempty, Bool.not_true, Bool.false_eq_true, if_false, Except.ok.injEq] at h
        exact ⟨⟨hname, fun _ => hfile⟩, h.symm⟩

theorem nonneg_of_not_lt {n : Int64} (h : ¬n < 0) : 0 ≤ n.toInt := by
  rw [Int64.lt_iff_toInt_lt] at h
  simpa using h

theorem resolve_eq_ok {s : Scope} {segment : Segment} {index : Int64} {place : Block.Place}
    (h : s.resolve segment index = .ok place) : Resolves s segment index place := by
  unfold Scope.resolve at h
  cases hplace : s.place? segment with
  | none => simp [hplace] at h
  | some found =>
    simp only [hplace] at h
    split at h
    · exact absurd h (by simp)
    · rename_i hnonneg
      split at h
      · exact absurd h (by simp)
      · rename_i hconstant
        split at h
        · exact absurd h (by simp)
        · rename_i hstatic
          obtain rfl := Except.ok.inj h
          refine ⟨hplace, ?_, fun himmediate => ?_, fun hsegment hfile => hstatic ⟨hsegment, by simp [hfile]⟩⟩
          · exact nonneg_of_not_lt hnonneg
          · have hless : ¬Scope.constantLimit ≤ index := fun hle => hconstant ⟨himmediate, hle⟩
            rw [Int64.le_iff_toInt_le] at hless
            have hlimit : Scope.constantLimit.toInt = 32768 := by decide
            omega

theorem branch_eq_ok {s s' : Scope} {name : Bytes} {make : Bytes → Block} {block : Block}
    (h : s.branch name make = .ok (block, s')) : s.Names name ∧ block = make (s.labelOf name).symbol ∧ s' = s := by
  unfold Scope.branch at h
  cases hlabel : s.label name with
  | error r => simp [hlabel] at h
  | ok symbol =>
    rw [hlabel] at h
    obtain ⟨hnames, rfl⟩ := label_eq_ok hlabel
    obtain ⟨rfl, rfl⟩ := Prod.mk.inj (Except.ok.inj h)
    exact ⟨hnames, rfl, rfl⟩

theorem lowers_of_lower {s s' : Scope} {c : Command} {block : Block} (h : s.lower c = .ok (block, s')) :
    Lowers s c block s' := by
  cases c with
  | arithmetic op =>
    cases op with
    | eq => obtain ⟨rfl, rfl⟩ := Prod.mk.inj (Except.ok.inj h); exact .compare .eq
    | lt => obtain ⟨rfl, rfl⟩ := Prod.mk.inj (Except.ok.inj h); exact .compare .lt
    | gt => obtain ⟨rfl, rfl⟩ := Prod.mk.inj (Except.ok.inj h); exact .compare .gt
    | add => obtain ⟨rfl, rfl⟩ := Prod.mk.inj (Except.ok.inj h); exact .binary (by simp)
    | sub => obtain ⟨rfl, rfl⟩ := Prod.mk.inj (Except.ok.inj h); exact .binary (by simp)
    | and => obtain ⟨rfl, rfl⟩ := Prod.mk.inj (Except.ok.inj h); exact .binary (by simp)
    | or => obtain ⟨rfl, rfl⟩ := Prod.mk.inj (Except.ok.inj h); exact .binary (by simp)
    | neg => obtain ⟨rfl, rfl⟩ := Prod.mk.inj (Except.ok.inj h); exact .unary (by simp)
    | not => obtain ⟨rfl, rfl⟩ := Prod.mk.inj (Except.ok.inj h); exact .unary (by simp)
    | unknown code => exact absurd h (by simp [Scope.lower, Scope.arithmetic])
  | push segment index =>
    simp only [Scope.lower, Scope.push] at h
    cases hresolve : s.resolve segment index with
    | error r => simp [hresolve] at h
    | ok place =>
      rw [hresolve] at h
      obtain ⟨rfl, rfl⟩ := Prod.mk.inj (Except.ok.inj h)
      exact .push (resolve_eq_ok hresolve)
  | pop segment index =>
    simp only [Scope.lower, Scope.pop] at h
    cases hresolve : s.resolve segment index with
    | error r => simp [hresolve] at h
    | ok place =>
      rw [hresolve] at h
      cases place with
      | immediate => simp at h
      | _ =>
        obtain ⟨rfl, rfl⟩ := Prod.mk.inj (Except.ok.inj h)
        exact .pop (resolve_eq_ok hresolve) (by simp)
  | label name =>
    obtain ⟨hnames, rfl, rfl⟩ := branch_eq_ok h
    exact .label hnames
  | goto name =>
    obtain ⟨hnames, rfl, rfl⟩ := branch_eq_ok h
    exact .goto hnames
  | ifGoto name =>
    obtain ⟨hnames, rfl, rfl⟩ := branch_eq_ok h
    exact .ifGoto hnames
  | function name locals =>
    simp only [Scope.lower, Scope.declare] at h
    split at h
    · exact absurd h (by simp)
    · rename_i hname
      split at h
      · exact absurd h (by simp)
      · rename_i hnonneg
        obtain ⟨rfl, rfl⟩ := Prod.mk.inj (Except.ok.inj h)
        exact .function (by simpa using hname) (nonneg_of_not_lt hnonneg)
  | call name arguments =>
    simp only [Scope.lower, Scope.call] at h
    split at h
    · exact absurd h (by simp)
    · rename_i hname
      split at h
      · exact absurd h (by simp)
      · rename_i hnonneg
        obtain ⟨rfl, rfl⟩ := Prod.mk.inj (Except.ok.inj h)
        exact .call (by simpa using hname) (nonneg_of_not_lt hnonneg)
  | «return» =>
    obtain ⟨rfl, rfl⟩ := Prod.mk.inj (Except.ok.inj h)
    exact .return
  | unknown code => exact absurd h (by simp [Scope.lower])

/-! ## Labels -/

/-- The labels that the program itself declares by a command. -/
def declaredBy (s : Scope) : Command → List Label
  | .label name => [s.labelOf name]
  | .function name _ => [.entry name]
  | _ => []

/-- The labels that come with the block of a command. -/
def addedTo (s : Scope) : Command → List Label
  | .arithmetic .eq => roles.map (.compare .eq · s.eqCount)
  | .arithmetic .lt => roles.map (.compare .lt · s.ltCount)
  | .arithmetic .gt => roles.map (.compare .gt · s.gtCount)
  | .call name _ => [s.backOf name]
  | _ => []

theorem addedTo_of_binary {op : Op} {comp : Comp}
    (h : (op, comp) ∈ [(Op.add, Comp.dPlusM), (.sub, .mMinusD), (.and, .dAndM), (.or, .dOrM)]) (s : Scope) :
    addedTo s (.arithmetic op) = [] := by
  simp only [List.mem_cons, Prod.mk.injEq, List.not_mem_nil, or_false] at h
  obtain ⟨rfl, -⟩ | ⟨rfl, -⟩ | ⟨rfl, -⟩ | ⟨rfl, -⟩ := h <;> rfl

theorem addedTo_of_unary {op : Op} {comp : Comp} (h : (op, comp) ∈ [(Op.neg, Comp.negM), (.not, .notM)]) (s : Scope) :
    addedTo s (.arithmetic op) = [] := by
  simp only [List.mem_cons, Prod.mk.injEq, List.not_mem_nil, or_false] at h
  obtain ⟨rfl, -⟩ | ⟨rfl, -⟩ := h <;> rfl

theorem labelNames_function (name : Bytes) (locals : Nat) : labelNames (Block.function name locals) = [name] := by
  have hzeros : ∀ n : Nat, labelNames (List.replicate n [Block.setM .zero, Block.setA .incA]).flatten = [] := by
    intro n
    induction n with
    | zero => rfl
    | succ n ih =>
      rw [List.replicate_succ, List.flatten_cons, Assembly.labelNames_append, ih]
      rfl
  unfold Block.function
  split
  · rfl
  · show name :: labelNames _ = [name]
    rw [Assembly.labelNames_append, Assembly.labelNames_append, hzeros]
    rfl

/-- A block declares the labels that the program declares by the command, or those that come with it. -/
theorem Lowers.labelNames_eq {s s' : Scope} {c : Command} {block : Block} (h : Lowers s c block s') :
    labelNames block = (declaredBy s c ++ addedTo s c).map Label.symbol := by
  cases h with
  | compare order => cases order <;> rfl
  | binary operation =>
    rw [addedTo_of_binary operation]
    rfl
  | unary operation =>
    rw [addedTo_of_unary operation]
    rfl
  | @push _ _ place _ => cases place <;> rfl
  | @pop _ _ place _ _ => cases place <;> rfl
  | label names => rfl
  | goto names => rfl
  | ifGoto names => rfl
  | function named nonneg => exact labelNames_function _ _
  | call named nonneg => rfl
  | «return» => rfl

/-! ## Validity -/

/-- The names of the scope are identifiers, and its file satisfies `F`. -/
structure Scope.Valid (F : Bytes → Prop) (s : Scope) : Prop where
  function : ∀ name, s.function = some name → isIdentifier name = true
  file : s.file ≠ [] → F s.file

variable {F : Bytes → Prop} {s s' : Scope} {c : Command} {block : Block}

theorem Scope.Valid.labelOf {name : Bytes} (hs : s.Valid F) (h : s.Names name) : (s.labelOf name).Valid F := by
  unfold Scope.labelOf
  cases hfunction : s.function with
  | some function => exact ⟨hs.function function hfunction, h.1⟩
  | none => exact ⟨hs.file (h.2 hfunction), h.1⟩

theorem Scope.Valid.backOf {name : Bytes} (hs : s.Valid F) (h : isIdentifier name = true) : (s.backOf name).Valid F := by
  show isIdentifier (s.function.getD name) = true
  cases hfunction : s.function with
  | some function => exact hs.function function hfunction
  | none => exact h

theorem Lowers.valid (h : Lowers s c block s') (hs : s.Valid F) : s'.Valid F := by
  cases h with
  | compare order => cases order <;> exact ⟨hs.function, hs.file⟩
  | @function name locals named nonneg =>
    refine ⟨fun other hother => ?_, hs.file⟩
    obtain rfl := Option.some.inj hother
    exact named
  | call named nonneg => exact ⟨hs.function, hs.file⟩
  | _ => exact hs

theorem Lowers.valid_labels (h : Lowers s c block s') (hs : s.Valid F) :
    ∀ l ∈ declaredBy s c ++ addedTo s c, l.Valid F := by
  cases h with
  | compare order =>
    intro l hl
    cases order <;>
      · obtain ⟨role, hrole, rfl⟩ := List.mem_map.mp hl
        exact hrole
  | label names => simpa [declaredBy, addedTo] using hs.labelOf names
  | function named nonneg => simpa [declaredBy, addedTo, Label.Valid] using named
  | call named nonneg => simpa [declaredBy, addedTo] using hs.backOf named
  | binary operation => simp [declaredBy, addedTo_of_binary operation]
  | unary operation => simp [declaredBy, addedTo_of_unary operation]
  | _ => simp [declaredBy, addedTo]

/-! ## Statements -/

/-- What is added to an index of a segment before it is loaded, if that is not a constant or the name of a variable. -/
def offset? : Segment → Option Int
  | .local | .argument | .this | .that => some 0
  | .temp => some 5
  | .pointer => some 3
  | _ => none

/-- The numbers of a command are small enough for its block. -/
def Fits : Command → Prop
  | .push segment index | .pop segment index => ∀ offset ∈ offset? segment, offset + index.toInt ≤ 32767
  | .call _ arguments => arguments.toInt ≤ 32762
  | _ => True

instance : DecidablePred Fits
  | .push segment index | .pop segment index =>
    inferInstanceAs (Decidable (∀ offset ∈ offset? segment, offset + index.toInt ≤ 32767))
  | .call _ arguments => inferInstanceAs (Decidable (arguments.toInt ≤ 32762))
  | .arithmetic _ | .label _ | .goto _ | .ifGoto _ | .function _ _ | .return | .unknown _ => isTrue trivial

/-- The statements that the block of a command in a scope is made of. -/
inductive Part (F : Bytes → Prop) (s : Scope) (c : Command) : Statement → Prop where
  | compute (dest : Assembly.Dest) (comp : Comp) (jump : Assembly.Jump) : Part F s c (.compute dest comp jump)
  | register {name : String} (predefined : (Assembly.predefined? (ascii name)).isSome = true) :
      Part F s c (Block.register name)
  /-- Loads a label to jump to. -/
  | target {l : Label} (valid : l.Valid F) : Part F s c (Block.symbol l.symbol)
  | label {l : Label} (member : l ∈ declaredBy s c ++ addedTo s c) : Part F s c (.label l.symbol)
  /-- Loads the address of a static variable. -/
  | static (index : Nat) (valid : F s.file) : Part F s c (Block.symbol (s.file ++ [46] ++ Numeral.ofNat index))
  | number {n : Int} (range : Fits c → 0 ≤ n ∧ n ≤ Assembly.maxNumber) : Part F s c (Block.number n)

theorem toInt_add_of_small {a b : Int64} (ha : 0 ≤ a.toInt) (hb : 0 ≤ b.toInt) (h : a.toInt + b.toInt ≤ 32767) :
    (a + b).toInt = a.toInt + b.toInt := by
  rw [Int64.toInt_add]
  exact Int.bmod_eq_of_le (by omega) (by omega)

namespace Part

@[simp] theorem setA (comp : Comp) : Part F s c (Block.setA comp) := .compute _ _ _

@[simp] theorem setD (comp : Comp) : Part F s c (Block.setD comp) := .compute _ _ _

@[simp] theorem setM (comp : Comp) : Part F s c (Block.setM comp) := .compute _ _ _

@[simp] theorem setAM (comp : Comp) : Part F s c (Block.setAM comp) := .compute _ _ _

@[simp] theorem jumpIf (comp : Comp) (jump : Assembly.Jump) : Part F s c (Block.jumpIf comp jump) := .compute _ _ _

@[simp] theorem jumpAlways : Part F s c Block.jumpAlways := .compute _ _ _

@[simp] theorem named {name : String} (h : name ∈ ["SP", "LCL", "ARG", "THIS", "THAT", "R13", "R14"]) :
    Part F s c (Block.register name) := .register (by revert name; decide)

theorem pushD : ∀ st ∈ Block.pushD, Part F s c st := by simp [Block.pushD]

/-- Parts of the address of an entry. The number in it is the index, or a sum of the base and the index. -/
theorem address {segment : Segment} {index : Int64} {place : Block.Place} (hs : s.Valid F)
    (h : Resolves s segment index place) (hc : Fits c → ∀ offset ∈ offset? segment, offset + index.toInt ≤ 32767) :
    ∀ st ∈ Block.address place index, Part F s c st := by
  obtain ⟨hfound, hnonneg, -, hstatic⟩ := h
  have hmax : (Assembly.maxNumber : Int) = 32767 := rfl
  -- the sum is taken in 64 bits, and is that of the integers only because it is small
  have hdirect : ∀ base : Int64, 0 ≤ base.toInt → (Fits c → base.toInt + index.toInt ≤ 32767) →
      Part F s c (Block.number (base + index).toInt) := by
    intro base hbase hsmall
    refine .number fun hfits => ?_
    have hsum := toInt_add_of_small hbase hnonneg (hsmall hfits)
    have hle := hsmall hfits
    omega
  cases segment with
  | unknown code => exact absurd hfound (by simp [Scope.place?])
  | constant =>
    obtain rfl := Option.some.inj hfound
    simp [Block.address]
  | static =>
    obtain rfl := Option.some.inj hfound
    have hname := Part.static (c := c) index.toInt.toNat (hs.file (hstatic rfl))
    rw [← Numeral.ofInt_of_nonneg hnonneg] at hname
    simpa [Block.address] using hname
  | temp =>
    obtain rfl := Option.some.inj hfound
    simpa [Block.address] using hdirect 5 (by decide) fun hfits => hc hfits 5 rfl
  | pointer =>
    obtain rfl := Option.some.inj hfound
    simpa [Block.address] using hdirect 3 (by decide) fun hfits => hc hfits 3 rfl
  | _ =>
    obtain rfl := Option.some.inj hfound
    have hnumber : Part F s c (Block.number index.toInt) :=
      .number fun hfits => ⟨hnonneg, (Int.zero_add _).symm.trans_le (hc hfits 0 rfl)⟩
    simp [Block.address, hnumber]

end Part

theorem Lowers.parts (h : Lowers s c block s') (hs : s.Valid F) : ∀ st ∈ block, Part F s c st := by
  cases h with
  | compare order =>
    have hlabel : ∀ role ∈ roles, Part F s (.arithmetic (test order))
          (.label ((comparison order).label role (s.count order))) ∧
        Part F s (.arithmetic (test order)) (Block.symbol ((comparison order).label role (s.count order))) := by
      intro role hrole
      have hvalid : (Label.compare order role (s.count order)).Valid F := hrole
      refine ⟨.label (l := .compare order role (s.count order)) ?_, .target hvalid⟩
      cases order <;> exact List.mem_map.mpr ⟨role, hrole, rfl⟩
    simp only [roles, List.forall_mem_cons] at hlabel
    obtain ⟨hnonneg, hsame, hno, hyes, hend, -⟩ := hlabel
    have hchoice : ∀ b : Bool, Part F s (.arithmetic (test order))
        (Block.symbol (if b then (comparison order).label "_TRUE" (s.count order)
          else (comparison order).label "_FALSE" (s.count order))) := by
      intro b
      cases b
      · exact hno.2
      · exact hyes.2
    simp [Comparison.block, hnonneg, hsame, hno, hyes, hend, hchoice]
  | binary operation => simp [Block.binary]
  | unary operation => simp [Block.unary]
  | @push segment index place resolves =>
    have haddress := Part.address (c := .push segment index) hs resolves id
    unfold Block.push
    rw [List.forall_mem_append]
    refine ⟨?_, Part.pushD⟩
    cases place with
    | immediate =>
      have hnumber : Part F s (.push segment index) (Block.number index.toInt) :=
        .number fun _ => ⟨resolves.nonneg, resolves.constant rfl⟩
      simp [hnumber]
    | _ => exact List.forall_mem_append.mpr ⟨haddress, by simp⟩
  | @pop _ index place resolves addressed =>
    have haddress := Part.address (c := .pop _ index) hs resolves id
    simp only [Block.pop, List.forall_mem_append]
    exact ⟨⟨by simp, haddress⟩, by simp⟩
  | label names => simpa using Part.label (List.mem_append_left _ (List.mem_singleton.mpr rfl))
  | goto names => simpa [Block.goto] using Part.target (hs.labelOf names)
  | ifGoto names => simpa [Block.ifGoto] using Part.target (hs.labelOf names)
  | @function name locals named nonneg =>
    have hzeros : ∀ st ∈ (List.replicate locals.toInt.toNat [Block.setM .zero, Block.setA .incA]).flatten,
        Part F s (.function name locals) st := by
      intro st hst
      obtain ⟨pair, hpair, hmem⟩ := List.mem_flatten.mp hst
      rw [List.eq_of_mem_replicate hpair] at hmem
      simp only [List.mem_cons, List.not_mem_nil, or_false] at hmem
      obtain rfl | rfl := hmem <;> simp
    unfold Block.function
    rw [List.forall_mem_cons]
    refine ⟨.label (l := .entry name) (List.mem_append_left _ (List.mem_singleton.mpr rfl)), ?_⟩
    split
    · simp
    · simp only [List.forall_mem_append]
      exact ⟨⟨by simp, hzeros⟩, by simp⟩
  | @call name arguments named nonneg =>
    have hback : (s.backOf name).Valid F := hs.backOf named
    have hentry : Part F s (.call name arguments) (Block.symbol name) := .target (l := .entry name) named
    have hlabel : Part F s (.call name arguments) (.label (s.backOf name).symbol) :=
      .label (List.mem_append_right _ (List.mem_singleton.mpr rfl))
    have hnumber : Part F s (.call name arguments) (Block.number (arguments + 5).toInt) := by
      refine .number fun hfits => ?_
      have hsmall : arguments.toInt ≤ 32762 := hfits
      have hmax : (Assembly.maxNumber : Int) = 32767 := rfl
      have hfive : (5 : Int64).toInt = 5 := rfl
      have hsum := toInt_add_of_small nonneg (show 0 ≤ (5 : Int64).toInt by decide) (by omega)
      omega
    unfold Block.call
    simp only [List.forall_mem_append]
    refine ⟨⟨⟨by simp [Part.target hback], Part.pushD⟩, ?_⟩, ?_⟩
    · simp [Block.pushD]
    · -- a variable for the number, since `simp` would rewrite the sum
      generalize (arguments + 5).toInt = n at hnumber
      simp [hnumber, hentry, hlabel]
  | «return» =>
    have hnumber : Part F s .return (Block.number 5) := .number fun _ => by decide
    simp [Block.leave, hnumber]

end HackPlatform.Code
