import Mathlib.Data.List.Nodup
import HackPlatform.Proofs.Code.History
import HackPlatform.Proofs.Code.Lowering

/-!
# No label is declared twice

Return addresses and comparisons are numbered by counters that only grow: a label that comes with a block has the current
number, and all labels of the blocks behind it have larger ones (`Label.Fresh`). The other labels are those that the program
declares. So the labels of a run are pairwise distinct as soon as the program declares none twice in a scope (`labels_nodup`),
and so are their symbols. What has been written is a first part of the code, whose finished lines are lines of the code
(`labelLines_nodup`).
-/

namespace HackPlatform.Code

open Assembly (Statement labelNames)
open Stack (Command Op)

/-! ## Operations by their commands -/

theorem Operation.lower_cases {op : Operation} {s s' : Scope} {block : Block} (h : op.lower s = .ok (block, s')) :
    (∃ c lead rest, op.command? = some c ∧ Lowers s c rest s' ∧ block = lead ++ rest ∧
        (lead = [] ∨ lead = Block.resetStack)) ∨
      (op.command? = none ∧ block = [] ∧ (s' = s ∨ ∃ name, op = .file name ∧ s' = { s with file := name })) := by
  cases op with
  | file name =>
    obtain ⟨rfl, rfl⟩ := Prod.mk.inj (Except.ok.inj h)
    exact .inr ⟨rfl, rfl, .inr ⟨name, rfl, rfl⟩⟩
  | bootstrap =>
    simp only [lower, s.lower_entryPoint, Except.ok.injEq, Prod.mk.injEq] at h
    obtain ⟨rfl, rfl⟩ := h
    exact .inl ⟨_, _, _, rfl, lowers_of_lower s.lower_entryPoint, rfl, .inr rfl⟩
  | command c => exact .inl ⟨c, [], block, rfl, lowers_of_lower h, rfl, .inl rfl⟩
  | access kind segment index =>
    cases kind with
    | push => exact .inl ⟨_, [], block, rfl, lowers_of_lower h, rfl, .inl rfl⟩
    | pop => exact .inl ⟨_, [], block, rfl, lowers_of_lower h, rfl, .inl rfl⟩
    | _ => exact absurd h (by simp [lower])
  | located c => exact .inl ⟨c.item, [], block, rfl, lowers_of_lower h, rfl, .inl rfl⟩
  | flush =>
    obtain ⟨rfl, rfl⟩ := Prod.mk.inj (Except.ok.inj h)
    exact .inr ⟨rfl, rfl, .inl rfl⟩
  | close =>
    obtain ⟨rfl, rfl⟩ := Prod.mk.inj (Except.ok.inj h)
    exact .inr ⟨rfl, rfl, .inl rfl⟩

/-- The labels that the program declares by an operation. -/
def Operation.declares (s : Scope) (op : Operation) : List Label := op.command?.toList.flatMap (declaredBy s)

/-- The labels that come with the block of an operation. -/
def Operation.adds (s : Scope) (op : Operation) : List Label := op.command?.toList.flatMap (addedTo s)

def declared (s : Scope) (ops : List Operation) : List Label := (trace s ops).flatMap fun x => x.2.declares x.1

def labels (s : Scope) (ops : List Operation) : List Label :=
  (trace s ops).flatMap fun x => x.2.declares x.1 ++ x.2.adds x.1

theorem labelNames_block {op : Operation} {s s' : Scope} {block : Block} (h : op.lower s = .ok (block, s')) :
    labelNames block = (op.declares s ++ op.adds s).map Label.symbol := by
  rcases Operation.lower_cases h with ⟨c, lead, rest, hc, hlowers, rfl, hlead⟩ | ⟨hc, rfl, -⟩
  · have hnone : labelNames lead = [] := by rcases hlead with rfl | rfl <;> rfl
    rw [Assembly.labelNames_append, hnone, List.nil_append, hlowers.labelNames_eq]
    simp [Operation.declares, Operation.adds, hc]
  · simp [Operation.declares, Operation.adds, hc, labelNames]

theorem labelNames_code {s : Scope} {ops : List Operation} (h : Lowerable s ops) :
    labelNames (code s ops) = (labels s ops).map Label.symbol := by
  induction ops generalizing s with
  | nil => rfl
  | cons op rest ih =>
    rw [code_cons, Assembly.labelNames_append, labelNames_block h.head, ih h.tail]
    simp [labels, trace]

/-! ## Validity -/

theorem Operation.valid {F : Bytes → Prop} {op : Operation} {s s' : Scope} {block : Block}
    (h : op.lower s = .ok (block, s')) (hs : s.Valid F) (hfile : ∀ name, op = .file name → F name) : s'.Valid F := by
  rcases lower_cases h with ⟨c, lead, rest, -, hlowers, -⟩ | ⟨-, -, rfl | ⟨name, rfl, rfl⟩⟩
  · exact hlowers.valid hs
  · exact hs
  · exact ⟨hs.function, fun _ => hfile name rfl⟩

theorem valid_of_mem_trace {F : Bytes → Prop} {s : Scope} {ops : List Operation} (hs : s.Valid F)
    (h : Lowerable s ops) (hfiles : ∀ name, .file name ∈ ops → F name) : ∀ x ∈ trace s ops, x.1.Valid F := by
  induction ops generalizing s with
  | nil => simp [trace]
  | cons op rest ih =>
    rw [trace, List.forall_mem_cons]
    have hnext : (op.after s).Valid F := Operation.valid h.head hs fun name hop => hfiles name (by simp [hop])
    exact ⟨hs, ih hnext h.tail fun name hname => hfiles name (by simp [hname])⟩

theorem mem_of_mem_trace {s : Scope} {ops : List Operation} {x : Scope × Operation} (h : x ∈ trace s ops) : x.2 ∈ ops := by
  induction ops generalizing s with
  | nil => simp [trace] at h
  | cons op rest ih =>
    rcases List.mem_cons.mp h with rfl | h
    · exact List.mem_cons_self
    · exact List.mem_cons_of_mem _ (ih h)

theorem valid_of_mem_labels {F : Bytes → Prop} {s : Scope} {ops : List Operation} (hs : s.Valid F)
    (h : Lowerable s ops) (hfiles : ∀ name, .file name ∈ ops → F name) : ∀ l ∈ labels s ops, l.Valid F := by
  intro l hl
  obtain ⟨x, hx, hmem⟩ := List.mem_flatMap.mp hl
  have hvalid := valid_of_mem_trace hs h hfiles x hx
  rcases Operation.lower_cases (h x hx) with ⟨c, lead, rest, hc, hlowers, -⟩ | ⟨hc, -⟩
  · exact hlowers.valid_labels hvalid l (by simpa [Operation.declares, Operation.adds, hc] using hmem)
  · simp [Operation.declares, Operation.adds, hc] at hmem

theorem parts_code {F : Bytes → Prop} {s : Scope} {ops : List Operation} (hs : s.Valid F) (h : Lowerable s ops)
    (hfiles : ∀ name, .file name ∈ ops → F name) : ∀ st ∈ code s ops, ∃ x ∈ trace s ops, ∃ c,
      x.2.command? = some c ∧ x.1.Valid F ∧ (∀ l ∈ declaredBy x.1 c ++ addedTo x.1 c, l.Valid F) ∧ Part F x.1 c st := by
  intro st hst
  obtain ⟨x, hx, hmem⟩ := List.mem_flatMap.mp hst
  have hvalid := valid_of_mem_trace hs h hfiles x hx
  rcases Operation.lower_cases (h x hx) with ⟨c, lead, rest, hc, hlowers, hblock, hlead⟩ | ⟨hc, hblock, -⟩
  · refine ⟨x, hx, c, hc, hvalid, hlowers.valid_labels hvalid, ?_⟩
    rw [hblock, List.mem_append] at hmem
    rcases hmem with hmem | hmem
    · have hreset : ∀ st ∈ Block.resetStack, Part F x.1 c st := by
        have hnumber : Part F x.1 c (Block.number 256) := .number fun _ => by decide
        simp [Block.resetStack, hnumber]
      rcases hlead with rfl | rfl
      · exact absurd hmem (by simp)
      · exact hreset st hmem
    · exact hlowers.parts hvalid st hmem
  · rw [hblock] at hmem
    exact absurd hmem (by simp)

theorem valid_empty (F : Bytes → Prop) : Scope.Valid F {} := ⟨by simp, by simp⟩

/-! ## Freshness -/

namespace Label

/-- The number of the label has not been used before the scope. -/
def Fresh (s : Scope) : Label → Prop
  | back _ n => s.calls ≤ n
  | compare order _ n => s.count order ≤ n
  | _ => True

/-- Does the label come with a block? -/
def isAdded : Label → Bool
  | back _ _ => true
  | compare _ _ _ => true
  | _ => false

end Label

theorem mem_declaredBy {s : Scope} {c : Command} {l : Label} (h : l ∈ declaredBy s c) :
    l.isAdded = false ∧ declaredBy s c = [l] := by
  cases c with
  | label name =>
    obtain rfl := List.mem_singleton.mp h
    refine ⟨?_, rfl⟩
    unfold Scope.labelOf
    cases s.function <;> rfl
  | function name locals =>
    obtain rfl := List.mem_singleton.mp h
    exact ⟨rfl, rfl⟩
  | _ => simp [declaredBy] at h

/-- The labels that come with a block have the current number, which is used up behind it. -/
structure Numbered (s s' : Scope) (added : List Label) : Prop where
  nodup : added.Nodup
  added : ∀ l ∈ added, l.isAdded = true ∧ l.Fresh s ∧ ¬l.Fresh s'
  mono : ∀ l : Label, l.Fresh s' → l.Fresh s

theorem Numbered.none {s s' : Scope} (hcalls : s'.calls = s.calls) (hcount : ∀ order, s'.count order = s.count order) :
    Numbered s s' [] := by
  refine ⟨List.nodup_nil, by simp, fun l hl => ?_⟩
  cases l with
  | back caller n => exact Nat.le_trans (Nat.le_of_eq hcalls.symm) hl
  | compare order role n => exact Nat.le_trans (Nat.le_of_eq (hcount order).symm) hl
  | _ => trivial

theorem Numbered.compare (s : Scope) (order : Ordering) :
    Numbered s (s.counted order) (roles.map fun role => .compare order role (s.count order)) := by
  have hcount : (s.counted order).count order = s.count order + 1 := by cases order <;> rfl
  refine ⟨?_, fun l hl => ?_, fun l hl => ?_⟩
  · refine List.Nodup.map (fun role role' h => ?_) (by decide)
    exact (Label.compare.inj h).2.1
  · obtain ⟨role, -, rfl⟩ := List.mem_map.mp hl
    refine ⟨rfl, Nat.le_refl _, ?_⟩
    show ¬(s.counted order).count order ≤ s.count order
    omega
  · cases l with
    | back caller n => cases order <;> exact hl
    | compare other role n =>
      -- the counters of the other orders stay
      refine Nat.le_trans ?_ hl
      cases order <;> cases other <;> simp [Scope.count, Scope.counted]
    | _ => trivial

theorem Numbered.call (s : Scope) (name : Bytes) :
    Numbered s { s with calls := s.calls + 1 } [s.backOf name] := by
  refine ⟨List.nodup_singleton _, fun l hl => ?_, fun l hl => ?_⟩
  · obtain rfl := List.mem_singleton.mp hl
    refine ⟨rfl, Nat.le_refl _, ?_⟩
    show ¬s.calls + 1 ≤ s.calls
    omega
  · cases l with
    | back caller n => exact Nat.le_of_succ_le hl
    | compare order role n => cases order <;> exact hl
    | _ => trivial

theorem Lowers.numbered {s s' : Scope} {c : Command} {block : Block} (h : Lowers s c block s') :
    Numbered s s' (addedTo s c) := by
  cases h with
  | compare order => cases order <;> exact .compare s _
  | call named nonneg => exact .call s _
  | function named nonneg => exact .none rfl fun order => by cases order <;> rfl
  | binary operation =>
    rw [addedTo_of_binary operation]
    exact .none rfl fun _ => rfl
  | unary operation =>
    rw [addedTo_of_unary operation]
    exact .none rfl fun _ => rfl
  | _ => exact .none rfl fun _ => rfl

theorem Operation.numbered {op : Operation} {s s' : Scope} {block : Block} (h : op.lower s = .ok (block, s')) :
    Numbered s s' (op.adds s) := by
  rcases lower_cases h with ⟨c, lead, rest, hc, hlowers, -⟩ | ⟨hc, -, rfl | ⟨name, rfl, rfl⟩⟩
  · simpa [adds, hc] using hlowers.numbered
  · simpa [adds, hc] using Numbered.none rfl fun _ => rfl
  · exact .none rfl fun order => by cases order <;> rfl

theorem mem_declares {op : Operation} {s : Scope} {l : Label} (h : l ∈ op.declares s) :
    l.isAdded = false ∧ op.declares s = [l] := by
  unfold Operation.declares at *
  cases hc : op.command? with
  | none => simp [hc] at h
  | some c =>
    simp only [hc, Option.toList_some, List.flatMap_cons, List.flatMap_nil, List.append_nil] at h ⊢
    exact mem_declaredBy h

/-! ## Runs -/

theorem mem_declared {s : Scope} {ops : List Operation} {l : Label} (h : Lowerable s ops) (hl : l ∈ labels s ops)
    (huser : l.isAdded = false) : l ∈ declared s ops := by
  obtain ⟨x, hx, hmem⟩ := List.mem_flatMap.mp hl
  rcases List.mem_append.mp hmem with hmem | hmem
  · exact List.mem_flatMap.mpr ⟨x, hx, hmem⟩
  · have hadded := ((Operation.numbered (h x hx)).added l hmem).1
    rw [huser] at hadded
    exact Bool.noConfusion hadded

/-- The labels of a run are pairwise distinct if the program declares none twice, and their numbers are fresh at its start. -/
theorem labels_nodup {s : Scope} {ops : List Operation} (h : Lowerable s ops) (hdeclared : (declared s ops).Nodup) :
    (labels s ops).Nodup ∧ ∀ l ∈ labels s ops, l.Fresh s := by
  induction ops generalizing s with
  | nil => simp [labels, trace]
  | cons op rest ih =>
    have hnumbered := Operation.numbered h.head
    have hsplit : labels s (op :: rest) = (op.declares s ++ op.adds s) ++ labels (op.after s) rest := rfl
    have hdsplit : declared s (op :: rest) = op.declares s ++ declared (op.after s) rest := rfl
    rw [hdsplit, List.nodup_append'] at hdeclared
    obtain ⟨hnodup, hfresh⟩ := ih h.tail hdeclared.2.1
    rw [hsplit, List.nodup_append', List.nodup_append']
    refine ⟨⟨⟨hdeclared.1, hnumbered.nodup, fun l hl hadd => ?_⟩, hnodup, fun l hl hrest => ?_⟩, fun l hl => ?_⟩
    · -- a label that the program declares does not come with a block
      have hadded := (hnumbered.added l hadd).1
      rw [(mem_declares hl).1] at hadded
      exact Bool.noConfusion hadded
    · -- the number of a label that comes with this block is used up behind it
      rcases List.mem_append.mp hl with hl | hl
      · exact hdeclared.2.2 hl (mem_declared h.tail hrest (mem_declares hl).1)
      · exact (hnumbered.added l hl).2.2 (hfresh l hrest)
    · rcases List.mem_append.mp hl with hl | hl
      · rcases List.mem_append.mp hl with hl | hl
        · have huser := (mem_declares hl).1
          cases l <;> simp [Label.isAdded, Label.Fresh] at huser ⊢
        · exact (hnumbered.added l hl).2.1
      · exact hnumbered.mono l (hfresh l hl)

theorem labelNames_nodup {F : Bytes → Prop} (hF : ∀ file, F file → 36 ∉ file) {ops : List Operation}
    (h : Lowerable {} ops) (hfiles : ∀ name, .file name ∈ ops → F name) (hdeclared : (declared {} ops).Nodup) :
    (labelNames (code {} ops)).Nodup := by
  rw [labelNames_code h]
  have hvalid := valid_of_mem_labels (valid_empty F) h hfiles
  exact (labels_nodup h hdeclared).1.map_on fun a ha b hb => Label.symbol_injOn hF (hvalid a ha) (hvalid b hb)

/-! ## Lines of text -/

theorem not_mem_computeText (dest : Assembly.Dest) (comp : Assembly.Comp) (jump : Assembly.Jump) {b : UInt8}
    (hb : b = 10 ∨ b = 40) : b ∉ Statement.computeText dest comp jump := by
  obtain ⟨a, d, m⟩ := dest
  have hcomp : b ∉ comp.name := by rcases hb with rfl | rfl <;> cases comp <;> decide
  have hjump : b ∉ (if jump = .never then [] else 59 :: jump.name : Bytes) := by
    rcases hb with rfl | rfl <;> cases jump <;> decide
  have hdest : b ∉ (if Assembly.Dest.isNone ⟨a, d, m⟩ then [] else Assembly.Dest.name ⟨a, d, m⟩ ++ [61] : Bytes) := by
    rcases hb with rfl | rfl <;> cases a <;> cases d <;> cases m <;> decide
  rw [Statement.computeText, List.mem_append, List.mem_append]
  exact fun h => h.elim (fun h => h.elim hdest hcomp) hjump

theorem Block.text_eq_flatMap (block : Block) : block.text = (block.map Statement.text).flatMap (· ++ [10]) := by
  simp [Block.text, List.flatMap_map]

theorem head?_text_eq (s : Statement) : (s.text.head? == some 40) = s.label?.isSome := by
  cases s with
  | label name => rfl
  | load operand => cases operand <;> rfl
  | compute dest comp jump =>
    exact beq_eq_false_iff_ne.mpr fun h => not_mem_computeText dest comp jump (.inr rfl) (List.mem_of_head? h)

end HackPlatform.Code
