import HackPlatform.Code.Build
import HackPlatform.Volume.Pattern

/-!
# What patterns answer

A pattern that accepts some name has no malformed chunk, so it gives an answer for every name (`accepts?_ne_none`). The pattern for the
files of stack code accepts names with their ending only (`suffix_of_accepts`).
-/

namespace HackPlatform.Pattern

/-! ## Malformed patterns -/

/-- The chunk is a star that nothing follows. -/
def IsStar (c : PatternChunk) : Prop := c.starred = true ∧ c.parts = []

theorem isStar_iff (c : PatternChunk) : (c.starred && c.parts.isEmpty) = true ↔ IsStar c := by
  simp [IsStar]

theorem tail_addPart (part : PatternPart) (done : List PatternChunk) : (addPart part done).tail = done.tail := by
  cases done <;> rfl

theorem tail_addStar {done : List PatternChunk} (h : ∀ c ∈ done.tail, ¬IsStar c) :
    ∀ c ∈ (addStar done).tail, ¬IsStar c := by
  unfold addStar
  split
  · exact h
  · rename_i hhead
    cases done with
    | nil => simp
    | cons c rest =>
      intro x hx
      rcases List.mem_cons.mp hx with rfl | hx
      · obtain ⟨starred, parts⟩ := x
        rintro ⟨rfl, rfl⟩
        exact hhead _ rfl
      · exact h x hx

/-- Stars in a row are one star, so a star that nothing follows is the last chunk, and that one is left out if it is malformed. -/
theorem not_isStar_of_broken (bound : Nat) {done : List PatternChunk} (text : Bytes) (hdone : ∀ c ∈ done.tail, ¬IsStar c)
    (hbroken : (readParts bound done text).broken = true) : ∀ c ∈ (readParts bound done text).chunks, ¬IsStar c := by
  have hcut : ∀ done : List PatternChunk, (∀ c ∈ done.tail, ¬IsStar c) →
      ∀ c ∈ (ofReversed done.tail true).chunks, ¬IsStar c := by
    intro done hdone c hc
    obtain ⟨x, hx, rfl⟩ := List.mem_map.mp (List.mem_reverse.mp hc)
    simpa [IsStar] using hdone x hx
  fun_induction readParts bound done text with
  | case1 => simp [ofReversed] at hbroken
  | case2 | case5 | case7 => exact hcut _ hdone
  | case3 => rename_i ih; exact ih (tail_addStar hdone) hbroken
  | case4 | case6 | case8 | case9 => rename_i ih; exact ih (by rwa [tail_addPart]) hbroken

theorem acceptsFrom?_of_broken {chunks : List PatternChunk} (h : ∀ c ∈ chunks, ¬IsStar c) (name : Bytes) :
    acceptsFrom? true chunks name ≠ some true := by
  fun_induction acceptsFrom? true chunks name with
  | case1 => simp
  | case2 => contradiction
  | case3 c rest name hstar => exact absurd ((isStar_iff c).mp hstar) (h c List.mem_cons_self)
  | case4 | case5 => rename_i ih; exact ih fun x hx => h x (List.mem_cons_of_mem _ hx)
  | case6 => simp

theorem acceptsFrom?_ne_none (chunks : List PatternChunk) (name : Bytes) : acceptsFrom? false chunks name ≠ none := by
  fun_induction acceptsFrom? false chunks name <;> simp_all

theorem accepts?_ne_none {text name : Bytes} (h : (read text).accepts? name = some true) (other : Bytes) :
    (read text).accepts? other ≠ none := by
  have hbroken : (read text).broken = false := by
    rw [Bool.eq_false_iff]
    intro hbroken
    rw [accepts?, hbroken] at h
    exact acceptsFrom?_of_broken (not_isStar_of_broken _ text (by simp) hbroken) name h
  rw [accepts?, hbroken]
  exact acceptsFrom?_ne_none _ _

/-! ## A star and a text -/

theorem foldlM_takePart?_literal {text name next : Bytes}
    (h : (text.map PatternPart.byte).foldlM (fun rest p => takePart? p rest) name = some next) : name = text ++ next := by
  induction text generalizing name with
  | nil => exact Option.some.inj h
  | cons b rest ih =>
    rw [List.map_cons, List.foldlM_cons] at h
    cases name with
    | nil => exact absurd h (by simp [takePart?])
    | cons first others =>
      have hpart : takePart? (.byte b) (first :: others) = if first = b then some others else none := rfl
      rw [hpart] at h
      split at h
      · rename_i hb
        rw [hb, ih h, List.cons_append]
      · exact absurd h (by simp)

theorem takeParts?_literal {text name next : Bytes} (h : takeParts? true (text.map .byte) name = some next) :
    name = text := by
  obtain ⟨hparts, hlast⟩ := Option.filter_eq_some_iff.mp h
  have hnext : next = [] := by simpa using hlast
  rw [foldlM_takePart?_literal hparts, hnext, List.append_nil]

theorem seekParts?_spec {last : Bool} {parts : List PatternPart} {name next : Bytes} (h : seekParts? last parts name = some next) :
    ∃ skipped rest, name = skipped ++ rest ∧ Path.separator ∉ skipped ∧ takeParts? last parts rest = some next := by
  fun_induction seekParts? last parts name with
  | case1 => exact absurd h (by simp)
  | case2 => exact absurd h (by simp)
  | case3 b rest hb found htake => exact ⟨[b], rest, rfl, by simpa using Ne.symm hb, htake.trans h⟩
  | case4 b rest hb htake ih =>
    obtain ⟨skipped, behind, rfl, hskipped, hbehind⟩ := ih h
    exact ⟨b :: skipped, behind, rfl, by simpa [hskipped] using Ne.symm hb, hbehind⟩

/-- The pattern of stack code accepts names with the ending of stack code only. -/
theorem suffix_of_accepts {name : Bytes} (h : (read (42 :: Code.fileEnding)).accepts? name = some true) :
    ∃ stem, name = stem ++ Code.fileEnding ∧ Path.separator ∉ stem := by
  have hread : read (42 :: Code.fileEnding) = ⟨[⟨true, Code.fileEnding.map .byte⟩], false⟩ := by decide
  have hchunk : ¬((true && (Code.fileEnding.map PatternPart.byte).isEmpty) = true) := by decide
  rw [hread, accepts?, acceptsFrom?, if_neg hchunk] at h
  simp only [List.isEmpty_nil, Bool.not_false, Bool.and_self, if_true] at h
  split at h
  · rename_i htake
    exact ⟨[], takeParts?_literal htake, by simp⟩
  · split at h
    · rename_i hseek
      obtain ⟨skipped, rest, rfl, hskipped, htake⟩ := seekParts?_spec hseek
      exact ⟨skipped, by rw [takeParts?_literal htake], hskipped⟩
    · exact absurd h (by simp)

end HackPlatform.Pattern
