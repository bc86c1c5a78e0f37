import HackPlatform.Proofs.Text.Columns

/-!
# Reading line by line

A reader that is fed the lines of a source takes them one after the other until it is full (`Source.feed_eq`). What it reports
about a line may depend on the lines before. `Source.numbers` are the numbers of the lines that have a property, and
`Source.located` is what is found on the lines, with its places. Reports are about the first lines in question if they are the
first ten of these (`firstFaults_of_take`).
-/

namespace HackPlatform.Source

/-- A reader takes the first lines, up to the first at which it is full. It meets the fault of a source only if it takes all of its
lines, or leaves just the one that the fault has cut. -/
theorem feed_eq {σ : Type} (source : Source) (full : σ → Bool) (step : σ → Bytes → σ) (s : σ) :
    ∃ n, n ≤ source.lines.length ∧ source.feed full step s =
        ((source.lines.take n).foldl step s,
          if n = source.lines.length ∨ source.cut = true ∧ n + 1 = source.lines.length then source.fault else none) ∧
      (∀ m < n, full ((source.lines.take m).foldl step s) = false) ∧
      (n < source.lines.length → full ((source.lines.take n).foldl step s) = true) := by
  unfold feed
  generalize source.lines = lines
  induction lines generalizing s with
  | nil => exact ⟨0, by simp [feedLines]⟩
  | cons line rest ih =>
    rw [feedLines]
    cases hfull : full s with
    | true => exact ⟨0, by simp [hfull]⟩
    | false =>
      obtain ⟨n, hn, heq, hbefore, hend⟩ := ih (step s line)
      refine ⟨n + 1, by simpa using hn, by simp [heq], fun m hm => ?_, by simpa using hend⟩
      cases m with
      | zero => simpa using hfull
      | succ m => simpa using hbefore m (by omega)

/-! ## Lines with a property -/

section Numbers

variable (p : List Bytes → Bytes → Prop) [∀ before line, Decidable (p before line)]

/-- The numbers of the lines that have a property, which may depend on the lines before. -/
def numbersFrom : List Bytes → List Bytes → List Nat
  | _, [] => []
  | before, line :: rest =>
    (if p before line then [before.length + 1] else []) ++ numbersFrom (before ++ [line]) rest

/-- The numbers of the lines that have a property. -/
def numbers (lines : List Bytes) : List Nat := numbersFrom p [] lines

theorem numbersFrom_append (before xs ys : List Bytes) :
    numbersFrom p before (xs ++ ys) = numbersFrom p before xs ++ numbersFrom p (before ++ xs) ys := by
  induction xs generalizing before with
  | nil => simp [numbersFrom]
  | cons line xs ih => simp [numbersFrom, ih, List.append_assoc]

theorem numbers_concat (lines : List Bytes) (line : Bytes) :
    numbers p (lines ++ [line]) = numbers p lines ++ if p lines line then [lines.length + 1] else [] := by
  rw [numbers, numbersFrom_append]
  simp [numbers, numbersFrom]

theorem numbers_take_isPrefix (n : Nat) (lines : List Bytes) : numbers p (lines.take n) <+: numbers p lines := by
  conv_rhs => rw [← List.take_append_drop n lines]
  rw [numbers, numbers, numbersFrom_append]
  exact List.prefix_append _ _

theorem mem_numbersFrom {before lines : List Bytes} {number : Nat} :
    number ∈ numbersFrom p before lines ↔ ∃ front line back, lines = front ++ line :: back ∧ p (before ++ front) line ∧
      number = (before ++ front).length + 1 := by
  induction lines generalizing before with
  | nil => simp [numbersFrom]
  | cons first rest ih =>
    rw [numbersFrom, List.mem_append, ih]
    constructor
    · rintro (h | ⟨front, line, back, rfl, hp, rfl⟩)
      · split at h
        · exact ⟨[], first, rest, rfl, by simpa, by simpa using h⟩
        · simp at h
      · exact ⟨first :: front, line, back, rfl, by simpa using hp, by simp⟩
    · rintro ⟨front, line, back, hlines, hp, rfl⟩
      cases front with
      | nil =>
        obtain ⟨rfl, rfl⟩ := List.cons.inj hlines
        exact .inl (by rw [if_pos (by simpa using hp)]; simp)
      | cons other front =>
        obtain ⟨rfl, rfl⟩ := List.cons.inj hlines
        exact .inr ⟨front, line, back, rfl, by simpa using hp, by simp⟩

theorem mem_numbers {lines : List Bytes} {number : Nat} :
    number ∈ numbers p lines ↔ ∃ front line back, lines = front ++ line :: back ∧ p front line ∧ number = front.length + 1 :=
  mem_numbersFrom p

theorem numbersFrom_of_forall_not {lines : List Bytes} (h : ∀ line ∈ lines, ∀ before, ¬p before line) (before : List Bytes) :
    numbersFrom p before lines = [] := by
  rw [List.eq_nil_iff_forall_not_mem]
  intro number hnumber
  obtain ⟨front, line, back, rfl, hp, -⟩ := (mem_numbersFrom p).mp hnumber
  exact h line (by simp) _ hp

theorem length_numbersFrom_of_forall {lines : List Bytes} (h : ∀ line ∈ lines, ∀ before, p before line) (before : List Bytes) :
    (numbersFrom p before lines).length = lines.length := by
  induction lines generalizing before with
  | nil => rfl
  | cons line rest ih =>
    rw [List.forall_mem_cons] at h
    rw [numbersFrom, if_pos (h.1 before), List.length_append, ih h.2, List.length_singleton, List.length_cons, Nat.add_comm]

theorem pairwise_numbersFrom (before lines : List Bytes) : (numbersFrom p before lines).Pairwise (· < ·) := by
  induction lines generalizing before with
  | nil => exact .nil
  | cons line rest ih =>
    refine List.pairwise_append.mpr ⟨by split <;> simp, ih _, fun first hfirst second hsecond => ?_⟩
    obtain ⟨front, -, -, -, -, rfl⟩ := (mem_numbersFrom p).mp hsecond
    split at hfirst
    · obtain rfl := List.mem_singleton.mp hfirst
      simp
    · simp at hfirst

theorem pairwise_numbers (lines : List Bytes) : (numbers p lines).Pairwise (· < ·) := pairwise_numbersFrom p [] lines

theorem le_length_of_mem_numbers {lines : List Bytes} {number : Nat} (h : number ∈ numbers p lines) : number ≤ lines.length := by
  obtain ⟨front, line, back, rfl, -, rfl⟩ := (mem_numbers p).mp h
  simp

variable {p}

theorem numbers_take_of_stop {limit n : Nat} {lines : List Bytes} (hlimit : 0 < limit) (hn : n ≤ lines.length)
    (hbefore : ∀ m < n, (numbers p (lines.take m)).length < limit)
    (hend : n < lines.length → limit ≤ (numbers p (lines.take n)).length) :
    numbers p (lines.take n) = (numbers p lines).take limit ∧ n = ((numbers p lines)[limit - 1]?).getD lines.length := by
  by_cases hfull : limit ≤ (numbers p (lines.take n)).length
  · obtain ⟨rest, hrest⟩ := numbers_take_isPrefix p n lines
    rw [← hrest]
    -- the last line that was read has the property, and is the one that the reader stops at
    cases n with
    | zero => simp [numbers, numbersFrom] at hfull; omega
    | succ n =>
      have hroom := hbefore n (by omega)
      rw [List.take_succ_eq_append_getElem (by omega), numbers_concat] at hfull ⊢
      split at hfull
      · rename_i hp
        rw [List.length_append, List.length_singleton] at hfull
        obtain rfl : limit = (numbers p (lines.take n)).length + 1 := by omega
        rw [if_pos hp, List.length_take_of_le (by omega), List.take_left' (by simp), List.append_assoc]
        simp
      · simp at hfull
        omega
  · obtain rfl : n = lines.length := by omega
    rw [List.take_length] at hfull ⊢
    rw [List.take_of_length_le (by omega), List.getElem?_eq_none (by omega)]
    exact ⟨rfl, rfl⟩

end Numbers

/-- Lines are reported as the first ones with a fault: at least one and at most ten of them, in order and each once, and no line with a
fault before one that is reported is left out. -/
structure FirstFaults (faults : List Nat) (reported : List Int) : Prop where
  atLeast : 1 ≤ reported.length
  atMost : reported.length ≤ 10
  increasing : reported.Pairwise (· < ·)
  first : ∀ fault ∈ faults, ∀ line ∈ reported, (fault : Int) < line → (fault : Int) ∈ reported

theorem pairwise_cast {numbers : List Nat} (h : numbers.Pairwise (· < ·)) :
    (numbers.map (Nat.cast : Nat → Int)).Pairwise (· < ·) := by
  rw [List.pairwise_map]
  exact h.imp fun hlt => Int.ofNat_lt.mpr hlt

theorem firstFaults_of_take {faults : List Nat} (hfaults : faults.Pairwise (· < ·)) (hne : faults ≠ []) :
    FirstFaults faults ((faults.take 10).map Nat.cast) := by
  have hpos := List.length_pos_iff.mpr hne
  have hlength : ((faults.take 10).map (Nat.cast : Nat → Int)).length = min 10 faults.length := by
    rw [List.length_map, List.length_take]
  refine ⟨by omega, by omega, pairwise_cast (hfaults.sublist (List.take_sublist 10 faults)), ?_⟩
  intro fault hfault line hline hlt
  obtain ⟨number, hnumber, rfl⟩ := List.mem_map.mp hline
  rw [← List.take_append_drop 10 faults] at hfaults hfault
  rcases List.mem_append.mp hfault with hfault | hfault
  · exact List.mem_map_of_mem hfault
  · have hlater := (List.pairwise_append.mp hfaults).2.2 number hnumber fault hfault
    have hearlier := Int.ofNat_lt.mp hlt
    omega

theorem numbers_map_dropReturn {p : List Bytes → Bytes → Prop} [∀ before line, Decidable (p before line)]
    (h : ∀ before line, p (before.map dropReturn) (dropReturn line) ↔ p before line) (lines : List Bytes) :
    numbers p (lines.map dropReturn) = numbers p lines := by
  induction lines using List.reverseRecOn with
  | nil => rfl
  | append_singleton lines line ih =>
    rw [List.map_append, List.map_singleton, numbers_concat, numbers_concat, ih]
    simp only [h, List.length_map]

end HackPlatform.Source

namespace HackPlatform

/-! ## Places of what is found on lines -/

/-- The place of a column of the line behind other lines. Every line counts one byte more than it has. -/
def Position.behind (name : Bytes) (before : List Bytes) (column : Nat) : Position :=
  { file := name, line := before.length + 1, column, offset := ((before.map (·.length + 1)).sum : Nat) + column - 1 }

/-- Behind a part of a text stands the field with a number on its line. -/
structure Bytes.IsToken (text : Bytes) (number : Nat) (before token : Bytes) : Prop where
  here : before ++ token <+: text
  field : ∃ line fields, (text.splitOn 10)[before.count 10]? = some line ∧ Lays 1 (Rune.decode (uncommented line)) fields ∧
    fields[number]? = some ⟨token, columnAfter before⟩

/-- The position names the place behind a part of a text: its line, its column, and its offset but for the carriage returns at the ends
of the lines before. -/
structure Position.NamesPlace (pos : Position) (name before : Bytes) : Prop where
  file : pos.file = name
  line : pos.line = before.count 10 + 1
  column : pos.column = Bytes.columnAfter before
  offset : pos.offset + Bytes.returns before = before.length

theorem Position.NamesPlace.offset_eq_iff {pos : Position} {name before : Bytes} (h : pos.NamesPlace name before) :
    pos.offset = before.length ↔ ¬[13, 10] <:+: before := by
  have hoffset := h.offset
  rw [← Bytes.returns_eq_zero_iff]
  omega

theorem Source.length_dropReturn (line : Bytes) :
    (dropReturn line).length + (if line.getLast? = some 13 then 1 else 0) = line.length := by
  unfold dropReturn
  split
  · rename_i hend
    obtain ⟨front, rfl⟩ := List.getLast?_eq_some_iff.mp hend
    simp
  · simp

theorem Source.sum_length_dropReturn (lines : List Bytes) :
    ((lines.map dropReturn).map (·.length + 1)).sum + lines.countP (·.getLast? == some 13) = (lines.map (·.length + 1)).sum := by
  induction lines with
  | nil => rfl
  | cons line lines ih =>
    have hline := length_dropReturn line
    simp only [List.map_cons, List.sum_cons, List.countP_cons, beq_iff_eq] at ih ⊢
    omega

theorem Position.exists_behind {text : Bytes} {front back : List Bytes} {line : Bytes}
    (htext : text.splitOn 10 = front ++ line :: back) (name : Bytes) {column : Nat} (hpos : 1 ≤ column)
    (hinside : column - 1 ≤ line.length) : ∃ before, before ++ line.drop (column - 1) <+: text ∧
      before.count 10 = front.length ∧ Bytes.columnAfter before = column ∧
      (Position.behind name (front.map Source.dropReturn) column).NamesPlace name before := by
  have hfeed : ∀ piece ∈ front ++ line :: back, 10 ∉ piece := by
    intro piece hpiece
    rw [← htext] at hpiece
    exact Bytes.notMem_of_mem_splitOn hpiece
  have hfront : ∀ piece ∈ front, 10 ∉ piece := fun piece hpiece => hfeed piece (by simp [hpiece])
  have hpart : 10 ∉ line.take (column - 1) := fun hmem => hfeed line (by simp) (List.mem_of_mem_take hmem)
  have hlength : (line.take (column - 1)).length = column - 1 := List.length_take_of_le hinside
  have hcount := Bytes.count_lines_append hfront hpart
  have hcolumn : Bytes.columnAfter (front.flatMap (· ++ [10]) ++ line.take (column - 1)) = column := by
    rw [Bytes.columnAfter_lines_append hpart, hlength]
    omega
  have hsum := Source.sum_length_dropReturn front
  have htotal : (front.flatMap (· ++ [10])).length = (front.map (·.length + 1)).sum := by simp [List.length_flatMap]
  refine ⟨front.flatMap (· ++ [10]) ++ line.take (column - 1), ?_, hcount, hcolumn, rfl, ?_, ?_, ?_⟩
  · have hwhole : [10].intercalate (text.splitOn 10) = text := List.intercalate_splitOn 10
    rw [List.append_assoc, List.take_append_drop, ← hwhole, htext]
    exact Bytes.isPrefix_intercalate front line back
  · simp [Position.behind, hcount]
  · rw [hcolumn]
    rfl
  · rw [Bytes.returns_lines_append hfront hpart, List.length_append, hlength, htotal, Position.behind]
    simp only
    omega

namespace Source

variable {α : Type} (name : Bytes) (f : Bytes → Option (Nat × α))

/-- What is found on a line, with its place. -/
def located? (before : List Bytes) (line : Bytes) : Option (Located α) :=
  (f line).map fun x => ⟨.behind name before x.1, x.2⟩

/-- What is found on lines behind others, with its places. -/
def locatedFrom : List Bytes → List Bytes → List (Located α)
  | _, [] => []
  | before, line :: rest => (located? name f before line).toList ++ locatedFrom (before ++ [line]) rest

/-- What is found on lines, with its places. -/
def located (lines : List Bytes) : List (Located α) := locatedFrom name f [] lines

theorem locatedFrom_append (before xs ys : List Bytes) :
    locatedFrom name f before (xs ++ ys) = locatedFrom name f before xs ++ locatedFrom name f (before ++ xs) ys := by
  induction xs generalizing before with
  | nil => simp [locatedFrom]
  | cons line xs ih => simp [locatedFrom, ih, List.append_assoc]

theorem located_concat (lines : List Bytes) (line : Bytes) :
    located name f (lines ++ [line]) = located name f lines ++ (located? name f lines line).toList := by
  rw [located, locatedFrom_append]
  simp [located, locatedFrom]

theorem located_take_isPrefix (n : Nat) (lines : List Bytes) : located name f (lines.take n) <+: located name f lines := by
  conv_rhs => rw [← List.take_append_drop n lines]
  rw [located, located, locatedFrom_append]
  exact List.prefix_append _ _

theorem exists_of_mem_locatedFrom {before lines : List Bytes} {x : Located α} (h : x ∈ locatedFrom name f before lines) :
    ∃ front line back column, lines = front ++ line :: back ∧ f line = some (column, x.item) ∧
      x.pos = .behind name (before ++ front) column := by
  induction lines generalizing before with
  | nil => simp [locatedFrom] at h
  | cons first rest ih =>
    rw [locatedFrom, List.mem_append] at h
    rcases h with h | h
    · obtain ⟨⟨column, item⟩, hfound, rfl⟩ := Option.map_eq_some_iff.mp (Option.mem_toList.mp h)
      exact ⟨[], first, rest, column, rfl, hfound, by simp⟩
    · obtain ⟨front, line, back, column, rfl, hfound, hpos⟩ := ih h
      exact ⟨first :: front, line, back, column, rfl, hfound, by simpa using hpos⟩

theorem exists_of_mem_located {lines : List Bytes} {x : Located α} (h : x ∈ located name f lines) :
    ∃ front line back column, lines = front ++ line :: back ∧ f line = some (column, x.item) ∧ x.pos = .behind name front column :=
  exists_of_mem_locatedFrom name f h

/-- What is found on a line shows in a field of the line. Then its place is that of a token of the text. -/
theorem exists_token_of_mem_located {text : Bytes} (hlines : ∀ line ∈ text.splitOn 10, line.length ≤ lineLimit)
    (shows : α → Nat → Bytes → Prop)
    (hshows : ∀ line column item, f line = some (column, item) → ∃ number field,
      (Bytes.fields (Bytes.beforeComment line))[number]? = some field ∧ field.column = column ∧ shows item number field.text)
    {x : Located α} (h : x ∈ located name f (ofBytes text).lines) :
    ∃ number before token, shows x.item number token ∧ Bytes.IsToken text number before token ∧ x.pos.NamesPlace name before := by
  obtain ⟨last, hsplit, -⟩ := Bytes.splitOn_eq_rawLines_append text
  have hraw := (Bytes.lines_ofBytes fun line hline => hlines line (by rw [hsplit]; exact List.mem_append_left _ hline)).1
  obtain ⟨front, line, back, column, hfound, hitem, hpos⟩ := exists_of_mem_located name f h
  -- the line as it stands in the text, with its carriage return
  obtain ⟨rawFront, others, hothers, rfl, hmap⟩ := List.map_eq_append_iff.mp (hraw.symm.trans hfound)
  obtain ⟨raw, rawBack, rfl, rfl, -⟩ := List.map_eq_cons_iff.mp hmap
  obtain ⟨number, field, hfield, rfl, hshow⟩ := hshows _ _ _ hitem
  have hreturn : Bytes.fields (Bytes.beforeComment (dropReturn raw)) = Bytes.fields (Bytes.beforeComment raw) :=
    Bytes.apply_dropReturn (f := fun line => Bytes.fields (Bytes.beforeComment line)) Bytes.fields_beforeComment_append_return raw
  rw [hreturn] at hfield
  obtain ⟨hfirst, hinside, hprefix⟩ := Bytes.isPrefix_drop_of_mem (List.mem_of_getElem? hfield)
  rw [hothers, List.append_assoc] at hsplit
  obtain ⟨before, hbefore, hcount, hcolumn, hplace⟩ := Position.exists_behind hsplit name hfirst hinside
  refine ⟨number, before, field.text, hshow, ⟨?_, raw, Bytes.fields (Bytes.beforeComment raw), ?_, ?_, ?_⟩, hpos ▸ hplace⟩
  · exact (List.prefix_append_right_inj before).mpr hprefix |>.trans hbefore
  · rw [hcount, hsplit]
    simp
  · rw [← Bytes.beforeComment_eq]
    exact Bytes.fields_lays _
  · rw [hcolumn]
    exact hfield

theorem map_item_located (lines : List Bytes) :
    (located name f lines).map Located.item = lines.filterMap fun line => (f line).map Prod.snd := by
  induction lines using List.reverseRecOn with
  | nil => rfl
  | append_singleton lines line ih =>
    rw [located_concat, List.map_append, ih, List.filterMap_append]
    cases hfound : f line <;> simp [located?, hfound]

theorem map_line_located (lines : List Bytes) :
    (located name f lines).map (·.pos.line) = (numbers (fun _ line => (f line).isSome = true) lines).map Nat.cast := by
  induction lines using List.reverseRecOn with
  | nil => rfl
  | append_singleton lines line ih =>
    rw [located_concat, List.map_append, ih, numbers_concat, List.map_append]
    cases hfound : f line <;> simp [located?, hfound, Position.behind]

theorem pairwise_line_located (lines : List Bytes) : ((located name f lines).map (·.pos.line)).Pairwise (· < ·) := by
  rw [map_line_located]
  exact pairwise_cast (pairwise_numbers _ lines)

end Source

end HackPlatform
