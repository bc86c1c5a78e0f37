import Mathlib.Algebra.Group.Nat.Defs
import Mathlib.Data.List.Basic
import Mathlib.Order.Bounds.Defs
import HackPlatform.Machine.Screen
import HackPlatform.Proofs.Stream.Order

/-!
# Renditions pool the pixels of the screen

A rendition has the largest number of columns that is a power of two and fits (`exists_blockWidth`): the search tries
block widths in increasing order, so each one that it has passed over was too narrow. Its characters stand for blocks of
pixels, and a character is drawn exactly if its block has a black pixel (`pools_rows`). A pixel tells its block by two
divisions (`inBlock_iff`), so the blocks cover the screen and do not overlap, also where the last of them reaches below
the screen.
-/

namespace HackPlatform.Computer

/-! ## Pixels and blocks -/

/-- The pixel is black: its word can be addressed, and the bit of its column is set. -/
def IsBlack (c : Computer) (x y : Nat) : Prop :=
  ∃ word, c.ram.get? (16384 + 32 * y + x / 16) = some word ∧ word.toNat.testBit (x % 16) = true

/-- The pixel belongs to the block of `n` by `2 n` pixels that stands in this row and column of blocks. -/
def InBlock (n row column x y : Nat) : Prop :=
  (n * column ≤ x ∧ x < n * (column + 1)) ∧ 2 * n * row ≤ y ∧ y < 2 * n * (row + 1)

/-- Some pixel of the screen that belongs to the block is black. -/
def HasBlack (c : Computer) (n row column : Nat) : Prop := ∃ x y, InBlock n row column x y ∧ y < 256 ∧ c.IsBlack x y

theorem pixelAt_iff (c : Computer) (x y : Nat) : c.pixelAt x y = true ↔ c.IsBlack x y := by
  have haddr : screenBase + y * 32 + x / 16 = 16384 + 32 * y + x / 16 := by
    rw [Nat.mul_comm]
    rfl
  have hshift : (x % 16).toUInt16.toNat % 16 = x % 16 := by
    show x % 16 % 65536 % 16 = x % 16
    omega
  have hbit (word : Word) : (word >>> (x % 16).toUInt16 &&& 1 != 0) = word.toNat.testBit (x % 16) := by
    rw [Bool.eq_iff_iff, bne_iff_ne, ne_eq, ← UInt16.toNat_inj, UInt16.toNat_and, UInt16.toNat_shiftRight, hshift,
      Nat.testBit, bne_iff_ne, Nat.and_comm]
    rfl
  unfold pixelAt IsBlack Memory.get?
  simp only [haddr, hbit, Bool.and_eq_true, decide_eq_true_eq]
  split
  · rename_i hinside
    simp [hinside]
  · rename_i houtside
    simp [houtside]

theorem blockIsBlack_iff (c : Computer) (n row column : Nat) :
    c.blockIsBlack (n * column) (2 * n * row) n (2 * n) = true ↔ c.HasBlack n row column := by
  simp only [blockIsBlack, List.any_eq_true, List.mem_range'_1, pixelAt_iff, HasBlack, InBlock, Nat.mul_succ, screenHeight]
  constructor
  · rintro ⟨y, hy, x, hx, hblack⟩
    exact ⟨x, y, ⟨hx, by omega⟩, by omega, hblack⟩
  · rintro ⟨x, y, ⟨hx, hy⟩, hscreen, hblack⟩
    exact ⟨y, by omega, x, hx, hblack⟩

theorem inBlock_iff {n : Nat} (hn : 0 < n) (row column x y : Nat) :
    InBlock n row column x y ↔ row = y / (2 * n) ∧ column = x / n := by
  rw [eq_comm (a := row), eq_comm (a := column), Nat.div_eq_iff (by omega), Nat.div_eq_iff hn, InBlock, Nat.mul_succ,
    Nat.mul_succ, Nat.mul_comm row, Nat.mul_comm column]
  omega

/-! ## Widths -/

/-- The width of a rendition: the largest power of two that is at most the number of columns and at most 512, or one if
there are no columns. -/
def IsWidth (columns : Int) (w : Nat) : Prop :=
  if columns < 1 then w = 1 else IsGreatest {p : Nat | (∃ k, p = 2 ^ k) ∧ (p : Int) ≤ min columns 512} w

theorem screenWidth_div {j : Nat} (hj : j ≤ 9) : screenWidth / 2 ^ j = 2 ^ (9 - j) := Nat.pow_div hj Nat.two_pos

/-- The search ends at a power of two. Unless it is the last one, the screen fits; each one before was tried in vain. -/
theorem blockWidthFrom_spec (columns : Int) {doublings k : Nat} (hk : k + doublings = 9) :
    ∃ j, blockWidthFrom columns doublings (2 ^ k) = 2 ^ j ∧ j ≤ 9 ∧ (j < 9 → ((2 ^ (9 - j) : Nat) : Int) ≤ columns) ∧
      ∀ i, k ≤ i → i < j → columns < (2 ^ (9 - i) : Nat) := by
  induction doublings generalizing k with
  | zero => exact ⟨k, rfl, by omega, by omega, by omega⟩
  | succ doublings ih =>
    rw [blockWidthFrom, screenWidth_div (by omega)]
    by_cases hnarrow : ((2 ^ (9 - k) : Nat) : Int) > columns
    · obtain ⟨j, hj, hle, hfits, hbefore⟩ := ih (k := k + 1) (by omega)
      rw [if_pos hnarrow, ← Nat.pow_succ', hj]
      refine ⟨j, rfl, hle, hfits, fun i hi hij => ?_⟩
      rcases Nat.eq_or_lt_of_le hi with rfl | hi
      · exact hnarrow
      · exact hbefore i hi hij
    · rw [if_neg hnarrow]
      exact ⟨k, rfl, by omega, fun _ => Int.not_lt.mp hnarrow, by omega⟩

theorem exists_blockWidth (columns : Int) :
    ∃ j, j ≤ 9 ∧ blockWidth columns = 2 ^ j ∧ IsWidth columns (2 ^ (9 - j)) := by
  obtain ⟨j, hj, hle, hfits, hbefore⟩ := blockWidthFrom_spec columns (Nat.zero_add 9)
  refine ⟨j, hle, hj, ?_⟩
  have hbounds : 1 ≤ 2 ^ (9 - j) ∧ 2 ^ (9 - j) ≤ 2 ^ 9 :=
    ⟨Nat.two_pow_pos _, Nat.pow_le_pow_right Nat.two_pos (Nat.sub_le 9 j)⟩
  unfold IsWidth
  split
  · -- no power of two fits, so the search has gone on to the last block width
    rename_i hnone
    have hlast : ¬j < 9 := fun hlt => by
      have hcolumns := hfits hlt
      omega
    obtain rfl : j = 9 := by omega
    rfl
  · rename_i hsome
    refine ⟨⟨⟨_, rfl⟩, ?_⟩, ?_⟩
    · rcases Nat.eq_or_lt_of_le hle with rfl | hlt
      · show (1 : Int) ≤ min columns 512
        omega
      · have hcolumns := hfits hlt
        omega
    · rintro p ⟨⟨k, rfl⟩, hp⟩
      have hk : k ≤ 9 := (Nat.pow_le_pow_iff_right (a := 2) (by decide)).mp (by omega)
      refine Nat.pow_le_pow_right Nat.two_pos (Nat.le_of_not_lt fun hlarger => ?_)
      -- a larger power of two belongs to a block width that was passed over
      have hpassed := hbefore (9 - k) (Nat.zero_le _) (by omega)
      rw [show 9 - (9 - k) = k by omega] at hpassed
      omega

/-! ## Renditions -/

/-- The lines show the screen with `w` characters a line, each for a block of `512 / w` columns and twice as many rows. -/
structure Pools (c : Computer) (w : Nat) (lines : List Bytes) : Prop where
  height : lines.length = max 1 (128 / (512 / w))
  width : ∀ line ∈ lines, line.length = w
  /-- A block with a black pixel is a number sign, any other block a space. -/
  character (row : Nat) {text : Bytes} (htext : lines[row]? = some text) (column : Nat) {b : UInt8}
    (hb : text[column]? = some b) :
    (c.HasBlack (512 / w) row column ∧ b = 35) ∨ (¬c.HasBlack (512 / w) row column ∧ b = 32)
  /-- Every pixel of the screen belongs to exactly one character. -/
  covers {x y : Nat} (hx : x < 512) (hy : y < 256) :
    ∃! place : Nat × Nat, place.1 < lines.length ∧ place.2 < w ∧ InBlock (512 / w) place.1 place.2 x y

/-- The characters of a row of blocks. -/
def characters (c : Computer) (n row : Nat) : Bytes :=
  (List.range (screenWidth / n)).map fun column => if c.blockIsBlack (n * column) (2 * n * row) n (2 * n) then 35 else 32

/-- The lines of a rendition, without their ends. -/
def rows (c : Computer) (n : Nat) : List Bytes := (List.range ((screenHeight + 2 * n - 1) / (2 * n))).map (c.characters n)

theorem screenTexts_flatten (c : Computer) (columns : Int) (clear : Bool) :
    (c.screenTexts columns clear).flatten =
      (if clear then clearSequence else []) ++ (c.rows (blockWidth columns)).flatMap (· ++ [10]) := by
  have hlines : (c.screenLines (blockWidth columns)).flatten = (c.rows (blockWidth columns)).flatMap (· ++ [10]) := by
    rw [rows, List.flatMap_map]
    rfl
  rw [screenTexts, List.flatten_append, hlines]
  cases clear <;> simp

theorem pools_rows (c : Computer) {j : Nat} (hj : j ≤ 9) : c.Pools (2 ^ (9 - j)) (c.rows (2 ^ j)) := by
  have hblock : 512 / 2 ^ (9 - j) = 2 ^ j := by
    rw [show 512 / 2 ^ (9 - j) = 2 ^ (9 - (9 - j)) from screenWidth_div (Nat.sub_le 9 j), Nat.sub_sub_self hj]
  have hpositive : 0 < 2 ^ j := Nat.two_pow_pos j
  have hlength : (c.rows (2 ^ j)).length = (256 + 2 * 2 ^ j - 1) / (2 * 2 ^ j) := by
    rw [rows, List.length_map, List.length_range]
    rfl
  have hcharacters (row : Nat) : (c.characters (2 ^ j) row).length = 2 ^ (9 - j) := by
    rw [characters, List.length_map, List.length_range, screenWidth_div hj]
  constructor
  · have hheight : ∀ j ≤ 9, (256 + 2 * 2 ^ j - 1) / (2 * 2 ^ j) = max 1 (128 / 2 ^ j) := by decide
    rw [hlength, hblock, hheight j hj]
  · intro line hline
    obtain ⟨row, -, rfl⟩ := List.mem_map.mp hline
    exact hcharacters row
  · intro row text htext column b hb
    obtain ⟨_, rfl⟩ := List.getElem?_eq_some_iff.mp htext
    obtain ⟨_, rfl⟩ := List.getElem?_eq_some_iff.mp hb
    simp only [rows, characters, List.getElem_map, List.getElem_range]
    rw [hblock, ← blockIsBlack_iff]
    split
    · rename_i hblack
      exact .inl ⟨hblack, rfl⟩
    · rename_i hwhite
      exact .inr ⟨hwhite, rfl⟩
  · intro x y hx hy
    refine ⟨(y / (2 * 2 ^ j), x / 2 ^ j), ⟨?_, ?_, ?_⟩, ?_⟩
    · rw [hlength, show 256 + 2 * 2 ^ j - 1 = 255 + 2 * 2 ^ j by omega, Nat.add_div_right _ (by omega)]
      exact Nat.lt_succ_of_le (Nat.div_le_div_right (by omega))
    · rw [Nat.div_lt_iff_lt_mul hpositive, ← Nat.pow_add, Nat.sub_add_cancel hj]
      exact hx
    · rw [hblock, inBlock_iff hpositive]
      exact ⟨rfl, rfl⟩
    · rintro ⟨row, column⟩ ⟨-, -, hplace⟩
      rw [hblock, inBlock_iff hpositive] at hplace
      exact Prod.ext hplace.1 hplace.2

/-- The rendition of any memory, for any number of columns, shows exactly which blocks have a black pixel, and it is
written to every sink that has room for it. -/
theorem render_pools_pixels (c : Computer) (columns : Int) (clear : Bool) :
    ∃ w lines, IsWidth columns w ∧ c.Pools w lines ∧
      ∀ sink : Stream.Sink, sink.HasRoom ((if clear then clearSequence else []) ++ lines.flatMap (· ++ [10])).length →
        (c.render sink columns clear).1.contents =
            sink.contents ++ ((if clear then clearSequence else []) ++ lines.flatMap (· ++ [10])) ∧
          (c.render sink columns clear).2 = none := by
  obtain ⟨j, hj, hblock, hwidth⟩ := exists_blockWidth columns
  refine ⟨2 ^ (9 - j), c.rows (2 ^ j), hwidth, c.pools_rows hj, fun sink hroom => ?_⟩
  rw [← hblock, ← screenTexts_flatten] at hroom ⊢
  rw [render, Stream.emit_of_room hroom]
  simp [Stream.Sink.contents]

/-- A memory that ends behind the first word of the screen, of which only the sign bit is set, on three columns. -/
theorem render_pools_pixels_memory_end :
    let c : Computer := { ram := (Memory.blank 16385).write 16384 0x8000 }
    let sink : Stream.Sink := { limit := some 13 }
    sink.HasRoom (clearSequence ++ ascii "# \n").length ∧
      (c.render sink 3 true).1.contents = clearSequence ++ ascii "# \n" ∧ (c.render sink 3 true).2 = none := by
  intro c sink
  have hroom : sink.HasRoom (clearSequence ++ ascii "# \n").length := fun limit hlimit => by
    obtain rfl := Option.some.inj hlimit
    decide
  obtain ⟨w, lines, hwidth, hpools, hwritten⟩ := render_pools_pixels c 3 true
  obtain rfl : w = 2 := by
    obtain ⟨⟨⟨k, rfl⟩, hle⟩, hgreatest⟩ := hwidth
    have htwo : 2 ≤ 2 ^ k := hgreatest ⟨⟨1, rfl⟩, by decide⟩
    have hone : 1 ≤ k := (Nat.pow_le_pow_iff_right (a := 2) (by decide)).mp htwo
    have hlt : k < 2 := (Nat.pow_lt_pow_iff_right (a := 2) (by decide)).mp (by omega)
    obtain rfl : k = 1 := by omega
    rfl
  have hblack : c.HasBlack 256 0 0 := by
    refine ⟨15, 0, ⟨by decide, by decide⟩, by decide, 0x8000, ?_, by decide⟩
    simp [c, Memory.get?, Memory.read, Memory.write, Memory.blank]
  have hwhite : ¬c.HasBlack 256 0 1 := by
    rintro ⟨x, y, ⟨hx, -⟩, -, word, hword, -⟩
    have houtside : ¬16384 + 32 * y + x / 16 < c.ram.size := by
      show ¬16384 + 32 * y + x / 16 < 16385
      omega
    rw [Memory.get?, if_neg houtside] at hword
    exact absurd hword (by simp)
  obtain ⟨line, rfl⟩ := List.length_eq_one_iff.mp hpools.height
  obtain ⟨a, b, rfl⟩ := List.length_eq_two.mp (hpools.width line (by simp))
  obtain rfl : a = 35 := ((hpools.character 0 rfl 0 rfl).resolve_right fun h => h.1 hblack).2
  obtain rfl : b = 32 := ((hpools.character 0 rfl 1 rfl).resolve_left fun h => hwhite h.1).2
  exact ⟨hroom, hwritten sink hroom⟩

end HackPlatform.Computer
