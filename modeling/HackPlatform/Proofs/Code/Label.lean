import HackPlatform.Code.Scope
import HackPlatform.Proofs.Text.Numeral

/-!
# Labels of generated code

The labels of generated code fall into five families: entries of functions, labels inside of functions, return addresses,
labels of a file, and labels of comparisons. A symbol tells its family by the number of its dollar signs and by whether it
starts with one (`Label.shape_eq`), and inside of a family the parts can be read back. So no two labels share a
symbol (`Label.symbol_injOn`).
-/

namespace HackPlatform.Code

/-! ## Names -/

theorem not_dollar_of_isIdentifier {name : Bytes} (h : isIdentifier name = true) : 36 ∉ name :=
  not_mem_of_isWordOf h (by decide)

theorem ne_nil_of_isIdentifier {name : Bytes} (h : isIdentifier name = true) : name ≠ [] := by
  rintro rfl
  exact Bool.noConfusion h

/-! ## Families -/

def comparison : Ordering → Comparison
  | .eq => .eq
  | .lt => .lt
  | .gt => .gt

def roles : List String := ["_X_NONNEG", "_SAME_SIGN", "_FALSE", "_TRUE", "_END"]

/-- A label of generated code. -/
inductive Label where
  /-- The entry of a function. -/
  | entry (function : Bytes)
  /-- A label inside of a function. -/
  | inFunction (function name : Bytes)
  /-- The return address of a call. -/
  | back (caller : Bytes) (n : Nat)
  /-- A label outside of functions. -/
  | inFile (file name : Bytes)
  /-- A label of a comparison. -/
  | compare (order : Ordering) (role : String) (n : Nat)
deriving DecidableEq

namespace Label

def symbol : Label → Bytes
  | entry function => function
  | inFunction function name => function ++ [36] ++ name
  | back caller n => caller ++ ascii "$ret$" ++ Numeral.ofNat n
  | inFile file name => [36] ++ file ++ [36] ++ name
  | compare order role n => (comparison order).label role n

/-- Is the label one that code can hold, if its files satisfy `F`? -/
def Valid (F : Bytes → Prop) : Label → Prop
  | entry function => isIdentifier function = true
  | inFunction function name => isIdentifier function = true ∧ isIdentifier name = true
  | back caller _ => isIdentifier caller = true
  | inFile file name => F file ∧ isIdentifier name = true
  | compare _ role _ => role ∈ roles

/-- The number of dollar signs of the symbols of a family, and whether they start with one. -/
def shape : Label → Nat × Bool
  | entry _ => (0, false)
  | inFunction _ _ => (1, false)
  | back _ _ => (2, false)
  | inFile _ _ => (2, true)
  | compare _ _ _ => (1, true)

variable {F : Bytes → Prop}

theorem shape_eq (hF : ∀ file, F file → 36 ∉ file) {l : Label} (h : l.Valid F) :
    (l.symbol.count 36, l.symbol.head? == some 36) = l.shape := by
  have hcount : ∀ {name : Bytes}, isIdentifier name = true → name.count 36 = 0 :=
    fun hname => List.count_eq_zero.mpr (not_dollar_of_isIdentifier hname)
  have hdigits : ∀ n, (Numeral.ofNat n).count 36 = 0 :=
    fun n => List.count_eq_zero.mpr (Numeral.not_mem_ofNat (by decide) n)
  have hhead : ∀ {name : Bytes}, isIdentifier name = true → ∃ b rest, name = b :: rest ∧ b ≠ 36 := by
    intro name hname
    obtain ⟨b, rest, rfl⟩ := List.exists_cons_of_ne_nil (ne_nil_of_isIdentifier hname)
    exact ⟨b, rest, rfl, fun heq => not_dollar_of_isIdentifier hname (by simp [heq])⟩
  cases l with
  | entry function =>
    obtain ⟨b, rest, hcons, hb⟩ := hhead h
    simp only [symbol, shape, hcount h]
    simp [hcons, hb]
  | inFunction function name =>
    obtain ⟨b, rest, hcons, hb⟩ := hhead h.1
    simp only [symbol, shape, List.count_append, hcount h.1, hcount h.2]
    simp [hcons, hb]
  | back caller n =>
    obtain ⟨b, rest, hcons, hb⟩ := hhead h
    have hret : (ascii "$ret$").count 36 = 2 := by decide
    simp only [symbol, shape, List.count_append, hcount h, hdigits, hret]
    simp [hcons, hb]
  | inFile file name =>
    have hfile : file.count 36 = 0 := List.count_eq_zero.mpr (hF file h.1)
    simp [symbol, shape, List.count_append, hfile, hcount h.2]
  | compare order role n =>
    have hword : (ascii (comparison order).word).count 36 = 0 := by cases order <;> decide
    have hrole : (ascii role).count 36 = 0 := by
      have hall : ∀ role ∈ roles, (ascii role).count 36 = 0 := by decide
      exact hall role h
    simp [symbol, shape, Comparison.label, hword, hrole, hdigits]

theorem eq_entry_of_not_dollar (hF : ∀ file, F file → 36 ∉ file) {l : Label} (h : l.Valid F) (hdollar : 36 ∉ l.symbol) :
    l = .entry l.symbol := by
  have hshape := shape_eq hF h
  rw [List.count_eq_zero.mpr hdollar] at hshape
  cases l with
  | entry function => rfl
  | _ => exact absurd (congrArg Prod.fst hshape) (by simp [shape])

theorem compare_inj {o o' : Ordering} {role role' : String} (h : role ∈ roles) (h' : role' ∈ roles)
    (heq : ascii (comparison o).word ++ ascii role = ascii (comparison o').word ++ ascii role') :
    o = o' ∧ role = role' := by
  have hall : ∀ o o' : Ordering, ∀ role ∈ roles, ∀ role' ∈ roles,
      ascii (comparison o).word ++ ascii role = ascii (comparison o').word ++ ascii role' → o = o' ∧ role = role' := by
    intro o o'
    cases o <;> cases o' <;> decide
  exact hall o o' role h role' h' heq

/-- No two labels share a symbol. -/
theorem symbol_injOn (hF : ∀ file, F file → 36 ∉ file) {a b : Label} (ha : a.Valid F) (hb : b.Valid F)
    (h : a.symbol = b.symbol) : a = b := by
  -- labels of two families have two shapes; in a family, symbols are cut at a dollar sign or in front of their digits
  have hshape : a.shape = b.shape := by rw [← shape_eq hF ha, ← shape_eq hF hb, h]
  cases a with
  | entry function =>
    cases b with
    | entry function' => exact congrArg entry h
    | _ => simp [shape] at hshape
  | inFunction function name =>
    cases b with
    | inFunction function' name' =>
      simp only [symbol, List.append_assoc, List.singleton_append] at h
      obtain ⟨rfl, rfl⟩ := Bytes.append_cons_inj (not_dollar_of_isIdentifier ha.1) (not_dollar_of_isIdentifier hb.1) h
      rfl
    | _ => simp [shape] at hshape
  | back caller n =>
    cases b with
    | back caller' n' =>
      have hret : ∀ (c : Bytes) (m : Nat), symbol (back c m) = (c ++ ascii "$ret") ++ 36 :: Numeral.ofNat m := by
        intro c m
        simp [symbol, ascii]
      rw [hret, hret] at h
      obtain ⟨hcaller, rfl⟩ := Numeral.append_cons_ofNat_inj (by decide) h
      rw [List.append_cancel_right hcaller]
    | _ => simp [shape] at hshape
  | inFile file name =>
    cases b with
    | inFile file' name' =>
      simp only [symbol, List.append_assoc, List.singleton_append] at h
      obtain ⟨rfl, rfl⟩ := Bytes.append_cons_inj (hF _ ha.1) (hF _ hb.1) (List.cons.inj h).2
      rfl
    | _ => simp [shape] at hshape
  | compare order role n =>
    cases b with
    | compare order' role' n' =>
      have hjoin : ∀ (o : Ordering) (r : String) (m : Nat),
          symbol (compare o r m) = (36 :: (ascii (comparison o).word ++ ascii r)) ++ 95 :: Numeral.ofNat m := by
        intro o r m
        simp [symbol, Comparison.label]
      rw [hjoin, hjoin] at h
      obtain ⟨hwords, rfl⟩ := Numeral.append_cons_ofNat_inj (by decide) h
      obtain ⟨rfl, rfl⟩ := compare_inj ha hb (List.cons.inj hwords).2
      rfl
    | _ => simp [shape] at hshape

end Label

end HackPlatform.Code
