import Mathlib.Algebra.Group.Nat.Defs
import Mathlib.Data.List.Induction
import HackPlatform.Text.Numeral

/-!
# Numerals read back

`Numeral.ofNat` writes digits only, at least one of them, and `Numeral.value` reads them back. So numerals are
injective, and a text that a numeral is appended to can be cut again where the digits start.

`Numeral.binary` writes the last binary digits of a number, the last one first, and `Numeral.bits` reads binary digits from the
left. On numbers that fit the width, and on texts of binary digits, each undoes the other (`bits_binary`, `binary_bits`).
`Numeral.readInt?` reads just the decimal numerals (`readInt?_eq_some_iff`).
-/

namespace HackPlatform

theorem Bytes.append_cons_inj {b : UInt8} {x y u v : Bytes} (hx : b ∉ x) (hy : b ∉ y)
    (h : x ++ b :: u = y ++ b :: v) : x = y ∧ u = v := by
  induction x generalizing y with
  | nil =>
    cases y with
    | nil => exact ⟨rfl, (List.cons.inj h).2⟩
    | cons c y =>
      obtain ⟨rfl, _⟩ := List.cons.inj h
      simp at hy
  | cons c x ih =>
    cases y with
    | nil =>
      obtain ⟨rfl, _⟩ := List.cons.inj h
      simp at hx
    | cons c' y =>
      obtain ⟨rfl, htail⟩ := List.cons.inj h
      simp only [List.mem_cons, not_or] at hx hy
      obtain ⟨rfl, rfl⟩ := ih hx.2 hy.2 htail
      exact ⟨rfl, rfl⟩

namespace Numeral

theorem toNat_digit {n : Nat} (h : n < 10) : ((48 + n).toUInt8).toNat = 48 + n := by
  show (48 + n) % 256 = 48 + n
  omega

theorem isDigit_digit {n : Nat} (h : n < 10) : Bytes.isDigit (48 + n).toUInt8 = true := by
  simp only [Bytes.isDigit, Bool.and_eq_true, decide_eq_true_eq, UInt8.le_iff_toNat_le, toNat_digit h]
  exact ⟨Nat.le_add_right 48 n, show 48 + n ≤ 57 by omega⟩

theorem ofNat_of_lt {n : Nat} (h : n < 10) : ofNat n = [(48 + n).toUInt8] := by
  rw [ofNat, if_pos h]

theorem ofNat_of_le {n : Nat} (h : 10 ≤ n) : ofNat n = ofNat (n / 10) ++ [(48 + n % 10).toUInt8] := by
  rw [ofNat, if_neg (by omega)]

theorem ofNat_ne_nil (n : Nat) : ofNat n ≠ [] := by
  by_cases h : n < 10
  · simp [ofNat_of_lt h]
  · simp [ofNat_of_le (by omega : 10 ≤ n)]

theorem isDigit_of_mem_ofNat (n : Nat) : ∀ b ∈ ofNat n, Bytes.isDigit b = true := by
  induction n using Nat.strongRecOn with
  | _ n ih =>
    intro b hb
    by_cases h : n < 10
    · rw [ofNat_of_lt h, List.mem_singleton] at hb
      rw [hb]
      exact isDigit_digit h
    · rw [ofNat_of_le (by omega), List.mem_append, List.mem_singleton] at hb
      rcases hb with hb | hb
      · exact ih (n / 10) (by omega) b hb
      · rw [hb]
        exact isDigit_digit (by omega)

theorem value_append_digit (digits : Bytes) (b : UInt8) :
    value (digits ++ [b]) = 10 * value digits + (b.toNat - 48) := by
  simp [value]

theorem value_ofNat (n : Nat) : value (ofNat n) = n := by
  induction n using Nat.strongRecOn with
  | _ n ih =>
    by_cases h : n < 10
    · rw [ofNat_of_lt h]
      show 10 * 0 + (((48 + n).toUInt8).toNat - 48) = n
      rw [toNat_digit h]
      omega
    · rw [ofNat_of_le (by omega), value_append_digit, ih (n / 10) (by omega), toNat_digit (by omega)]
      omega

theorem readNat?_eq_some_iff (text : Bytes) (n : Nat) :
    readNat? text = some n ↔ text ≠ [] ∧ (∀ b ∈ text, Bytes.isDigit b = true) ∧ value text = n := by
  simp [readNat?, List.all_eq_true, and_assoc]

theorem readNat?_ofNat (n : Nat) : readNat? (ofNat n) = some n :=
  (readNat?_eq_some_iff _ _).mpr ⟨ofNat_ne_nil n, isDigit_of_mem_ofNat n, value_ofNat n⟩

theorem ofNat_injective {m n : Nat} (h : ofNat m = ofNat n) : m = n := by
  rw [← value_ofNat m, h, value_ofNat]

theorem length_ofNat_le (n : Nat) : (ofNat n).length ≤ n + 1 := by
  induction n using Nat.strongRecOn with
  | _ n ih =>
    by_cases h : n < 10
    · simp [ofNat_of_lt h]
    · have hle := ih (n / 10) (by omega)
      rw [ofNat_of_le (by omega), List.length_append, List.length_singleton]
      omega

/-- Of all texts of digits of a number the numeral is the shortest: the others have zeros in front. -/
theorem length_ofNat_value_le {digits : Bytes} (hne : digits ≠ []) (hdigits : ∀ b ∈ digits, Bytes.isDigit b = true) :
    (ofNat (value digits)).length ≤ digits.length := by
  induction digits using List.reverseRecOn with
  | nil => exact absurd rfl hne
  | append_singleton front b ih =>
    rw [value_append_digit, List.length_append, List.length_singleton]
    by_cases hsmall : 10 * value front + (b.toNat - 48) < 10
    · simp [ofNat_of_lt hsmall]
    · have hb : b.toNat - 48 < 10 := by
        have hdigit := hdigits b (by simp)
        simp only [Bytes.isDigit, Bool.and_eq_true, decide_eq_true_eq, UInt8.le_iff_toNat_le, UInt8.reduceToNat] at hdigit
        omega
      have hfront : front ≠ [] := by
        rintro rfl
        exact hsmall (by simpa [value] using hb)
      rw [ofNat_of_le (by omega), show (10 * value front + (b.toNat - 48)) / 10 = value front by omega, List.length_append,
        List.length_singleton]
      exact Nat.add_le_add_right (ih hfront fun c hc => hdigits c (by simp [hc])) 1

theorem exists_cons_ofNat (n : Nat) : ∃ b rest, ofNat n = b :: rest ∧ Bytes.isDigit b = true := by
  obtain ⟨b, rest, h⟩ := List.exists_cons_of_ne_nil (ofNat_ne_nil n)
  exact ⟨b, rest, h, isDigit_of_mem_ofNat n b (by simp [h])⟩

@[simp] theorem ofInt_natCast (n : Nat) : ofInt n = ofNat n := rfl

theorem ofInt_of_nonneg {n : Int} (h : 0 ≤ n) : ofInt n = ofNat n.toNat := by
  obtain ⟨m, rfl⟩ := Int.eq_ofNat_of_zero_le h
  rfl

theorem ofInt_of_neg {n : Int} (h : n < 0) : ∃ m, ofInt n = 45 :: ofNat m := by
  cases n with
  | ofNat m => exact absurd h (by simp)
  | negSucc m => exact ⟨m + 1, rfl⟩

/-! ## Bytes that are no digits -/

theorem not_mem_ofNat {b : UInt8} (h : Bytes.isDigit b = false) (n : Nat) : b ∉ ofNat n := by
  intro hb
  rw [isDigit_of_mem_ofNat n b hb] at h
  exact Bool.noConfusion h

theorem append_cons_ofNat_inj {b : UInt8} (hb : Bytes.isDigit b = false) {s t : Bytes} {m n : Nat}
    (h : s ++ b :: ofNat m = t ++ b :: ofNat n) : s = t ∧ m = n := by
  -- read from the end, the first byte that is no digit is `b` on both sides
  have hrev := congrArg List.reverse h
  simp only [List.reverse_append, List.reverse_cons, List.append_assoc, List.singleton_append] at hrev
  have hm : b ∉ (ofNat m).reverse := by simpa using not_mem_ofNat hb m
  have hn : b ∉ (ofNat n).reverse := by simpa using not_mem_ofNat hb n
  obtain ⟨hdigits, htext⟩ := Bytes.append_cons_inj hm hn hrev
  exact ⟨List.reverse_inj.mp htext, ofNat_injective (List.reverse_inj.mp hdigits)⟩

/-! ## Signs -/

/-- The text is a decimal numeral: digits with or without a sign, for a number of 64 bits. -/
def IsDecimal (text : Bytes) (n : Int) : Prop :=
  (minInt64 ≤ n ∧ n ≤ maxInt64) ∧ ∃ digits : Bytes, digits ≠ [] ∧ (∀ b ∈ digits, Bytes.isDigit b = true) ∧
    (((text = digits ∨ text = 43 :: digits) ∧ n = value digits) ∨ (text = 45 :: digits ∧ n = -(value digits : Int)))

theorem map_readNat?_eq_some_iff {f : Nat → Int} {text : Bytes} {n : Int} :
    (readNat? text).map f = some n ↔ text ≠ [] ∧ (∀ b ∈ text, Bytes.isDigit b = true) ∧ n = f (value text) := by
  simp only [Option.map_eq_some_iff, readNat?_eq_some_iff]
  constructor
  · rintro ⟨_, ⟨hne, hdigits, rfl⟩, rfl⟩
    exact ⟨hne, hdigits, rfl⟩
  · rintro ⟨hne, hdigits, rfl⟩
    exact ⟨_, ⟨hne, hdigits, rfl⟩, rfl⟩

/-- A sign is no digit, so it is clear where the digits start. -/
theorem readInt?_eq_some_iff {text : Bytes} {n : Int} : readInt? text = some n ↔ IsDecimal text n := by
  have hfits : fitsInt64 n = true ↔ minInt64 ≤ n ∧ n ≤ maxInt64 := by simp [fitsInt64]
  have hsign {b : UInt8} {rest : Bytes} (hb : Bytes.isDigit b = false) : ¬∀ d ∈ b :: rest, Bytes.isDigit d = true := by
    intro h
    rw [h b List.mem_cons_self] at hb
    exact Bool.noConfusion hb
  unfold readInt? IsDecimal
  rw [Option.filter_eq_some_iff, hfits, and_comm]
  refine and_congr_right fun _ => ?_
  split
  · rename_i rest
    rw [map_readNat?_eq_some_iff]
    constructor
    · rintro ⟨hne, hdigits, hn⟩
      exact ⟨rest, hne, hdigits, .inl ⟨.inr rfl, hn⟩⟩
    · rintro ⟨digits, hne, hdigits, ⟨rfl | htext, hn⟩ | ⟨htext, -⟩⟩
      · exact absurd hdigits (hsign rfl)
      · obtain rfl := (List.cons.inj htext).2
        exact ⟨hne, hdigits, hn⟩
      · exact absurd (List.cons.inj htext).1 (by decide)
  · rename_i rest
    have hcast : (readNat? rest).map (fun m => -(m : Int)) = (readNat? rest).map fun m => -Int.ofNat m := by
      cases readNat? rest <;> rfl
    rw [hcast, map_readNat?_eq_some_iff]
    constructor
    · rintro ⟨hne, hdigits, hn⟩
      exact ⟨rest, hne, hdigits, .inr ⟨rfl, hn⟩⟩
    · rintro ⟨digits, hne, hdigits, ⟨rfl | htext, -⟩ | ⟨htext, hn⟩⟩
      · exact absurd hdigits (hsign rfl)
      · exact absurd (List.cons.inj htext).1 (by decide)
      · obtain rfl := (List.cons.inj htext).2
        exact ⟨hne, hdigits, hn⟩
  · rename_i hplus hminus
    rw [map_readNat?_eq_some_iff]
    constructor
    · rintro ⟨hne, hdigits, hn⟩
      exact ⟨text, hne, hdigits, .inl ⟨.inl rfl, hn⟩⟩
    · rintro ⟨digits, hne, hdigits, ⟨rfl | htext, hn⟩ | ⟨htext, -⟩⟩
      · exact ⟨hne, hdigits, hn⟩
      · exact absurd htext (hplus _)
      · exact absurd htext (hminus _)

/-! ## Binary digits -/

/-- The value of a text of binary digits. -/
def bits (text : Bytes) : Nat := text.foldl (fun n b => 2 * n + (b.toNat - 48)) 0

theorem bits_append (text : Bytes) (b : UInt8) : bits (text ++ [b]) = 2 * bits text + (b.toNat - 48) := by
  simp [bits]

theorem length_binary (width n : Nat) : (binary width n).length = width := by
  induction width generalizing n with
  | zero => rfl
  | succ width ih => rw [binary, List.length_append, ih, List.length_singleton]

theorem mem_binary {width n : Nat} {b : UInt8} (h : b ∈ binary width n) : b = 48 ∨ b = 49 := by
  induction width generalizing n with
  | zero => exact absurd h (by simp [binary])
  | succ width ih =>
    rw [binary, List.mem_append, List.mem_singleton] at h
    rcases h with h | rfl
    · exact ih h
    · rcases Nat.mod_two_eq_zero_or_one n with h | h <;> rw [h] <;> decide

theorem bits_binary (width n : Nat) : bits (binary width n) = n % 2 ^ width := by
  induction width generalizing n with
  | zero => simp [binary, bits, Nat.mod_one]
  | succ width ih =>
    rw [binary, bits_append, ih, toNat_digit (by omega), Nat.pow_succ', Nat.mod_mul]
    omega

/-- The digits are those of the value: the last one is its remainder, and those before it are the digits of the quotient. -/
theorem binary_bits {text : Bytes} (h : ∀ b ∈ text, b = 48 ∨ b = 49) : binary text.length (bits text) = text := by
  induction text using List.reverseRecOn with
  | nil => rfl
  | append_singleton front b ih =>
    have hfront := ih fun c hc => h c (List.mem_append_left _ hc)
    have hdigit : b.toNat - 48 < 2 ∧ (48 + (b.toNat - 48)).toUInt8 = b := by
      rcases h b (by simp) with rfl | rfl <;> decide
    rw [List.length_append, List.length_singleton, binary, bits_append,
      show (2 * bits front + (b.toNat - 48)) / 2 = bits front by omega,
      show (2 * bits front + (b.toNat - 48)) % 2 = b.toNat - 48 by omega, hfront, hdigit.2]

theorem bits_lt {text : Bytes} (h : ∀ b ∈ text, b = 48 ∨ b = 49) : bits text < 2 ^ text.length := by
  have hmod := bits_binary text.length (bits text)
  rw [binary_bits h] at hmod
  rw [hmod]
  exact Nat.mod_lt _ (Nat.two_pow_pos _)

end Numeral

end HackPlatform
