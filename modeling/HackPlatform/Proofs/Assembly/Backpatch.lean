import HackPlatform.Proofs.Assembly.Reference

/-!
# One pass and patches

`assemble` does not know the values of symbols while it reads a program. `Draft.Tracks` says what it knows after some statements: the
words with zeros for symbols, the symbols in the order in which they were met, and for each of them the address of its label, if that
was declared, and the addresses of the instructions that load it. The values are written at the end, symbol by symbol.
`Patched.Holds` says that the words are then those for the right values of the symbols so far and zeros for the others, and that
the next variable address is the first one that is free.

From both, a program is accepted exactly if all its lines are statements, no label is declared twice and there are at most 32768
instructions, and then its words are those of the reference (`assemble_eq_ok_iff`).
-/

namespace HackPlatform.Assembly

/-! ## Entries of symbols -/

namespace Draft

variable {d d' : Draft} {name other : Bytes} {symbol : Symbol}

/-- The address of the label of a symbol, as far as it is known. -/
def address (d : Draft) (name : Bytes) : Int := ((d.symbols[name]?).map Symbol.address).getD unplaced

/-- The addresses of the instructions so far that load a symbol. -/
def uses (d : Draft) (name : Bytes) : List Nat := ((d.symbols[name]?).map (·.uses.toList)).getD []

theorem address_of_some (h : d.symbols[name]? = some symbol) : d.address name = symbol.address := by
  simp [address, h]

theorem uses_of_some (h : d.symbols[name]? = some symbol) : d.uses name = symbol.uses.toList := by
  simp [uses, h]

theorem fst_lookup (d : Draft) (name : Bytes) :
    (d.lookup name).1.address = d.address name ∧ (d.lookup name).1.uses.toList = d.uses name := by
  unfold lookup
  cases h : d.symbols[name]? with
  | some symbol => exact ⟨(address_of_some h).symm, (uses_of_some h).symm⟩
  | none => simp [address, uses, h]

theorem snd_lookup (d : Draft) (name : Bytes) : (d.lookup name).2.rom = d.rom ∧ (d.lookup name).2.errors = d.errors ∧
    (d.lookup name).2.pos = d.pos := by
  unfold lookup
  split <;> exact ⟨rfl, rfl, rfl⟩

theorem lookup_of_mem (h : name ∈ d.symbols) : (d.lookup name).2 = d := by
  unfold lookup
  rw [Std.HashMap.mem_iff_isSome_getElem?, Option.isSome_iff_exists] at h
  obtain ⟨symbol, h⟩ := h
  rw [h]

theorem getElem?_put_lookup (d : Draft) (name : Bytes) (symbol : Symbol) (other : Bytes) :
    ((d.lookup name).2.put name symbol).symbols[other]? = if name = other then some symbol else d.symbols[other]? := by
  by_cases heq : name = other
  · simp [put, heq]
  · unfold lookup
    split <;> simp [put, Std.HashMap.getElem?_insert, heq]

theorem address_put_lookup (d : Draft) (name : Bytes) (symbol : Symbol) (other : Bytes) :
    ((d.lookup name).2.put name symbol).address other = if name = other then symbol.address else d.address other := by
  rw [address, getElem?_put_lookup]
  split <;> rfl

theorem uses_put_lookup (d : Draft) (name : Bytes) (symbol : Symbol) (other : Bytes) :
    ((d.lookup name).2.put name symbol).uses other = if name = other then symbol.uses.toList else d.uses other := by
  rw [uses, getElem?_put_lookup]
  split <;> rfl

theorem mem_put_lookup {d : Draft} {name : Bytes} {symbol : Symbol} {other : Bytes} :
    other ∈ ((d.lookup name).2.put name symbol).symbols ↔ name = other ∨ other ∈ d.symbols := by
  rw [Std.HashMap.mem_iff_isSome_getElem?, getElem?_put_lookup, Std.HashMap.mem_iff_isSome_getElem?]
  split <;> simp [*]

theorem order_put_lookup (d : Draft) (name : Bytes) (symbol : Symbol) :
    ((d.lookup name).2.put name symbol).order.toList = if name ∈ d.symbols then d.order.toList else d.order.toList ++ [name] := by
  simp only [Std.HashMap.mem_iff_isSome_getElem?]
  unfold lookup
  cases h : d.symbols[name]? <;> simp [put]

theorem declare_of_placed (h : d.address name ≠ unplaced) : ∃ previous, d.declare name = d.fail (.redefinedLabel name previous) := by
  have hmem : name ∈ d.symbols := by
    rw [Std.HashMap.mem_iff_isSome_getElem?]
    cases hget : d.symbols[name]? with
    | some symbol => rfl
    | none => simp [address, hget] at h
  refine ⟨(d.lookup name).1.pos, ?_⟩
  rw [declare]
  simp only [(fst_lookup d name).1, ne_eq, h, not_false_eq_true, if_true, lookup_of_mem hmem]

theorem declare_of_unplaced (h : d.address name = unplaced) : ∃ symbol : Symbol, symbol.address = d.rom.size ∧
    symbol.uses.toList = d.uses name ∧ d.declare name = (d.lookup name).2.put name symbol := by
  refine ⟨{ (d.lookup name).1 with address := (d.lookup name).2.rom.size, pos := (d.lookup name).2.pos }, ?_, ?_, ?_⟩
  · rw [(snd_lookup d name).1]
  · exact (fst_lookup d name).2
  · rw [declare]
    simp only [(fst_lookup d name).1, h, ne_eq, not_true_eq_false, if_false]

theorem use_eq (d : Draft) (name : Bytes) : ∃ symbol : Symbol, symbol.address = d.address name ∧
    symbol.uses.toList = d.uses name ++ [d.rom.size] ∧ d.use name = ((d.lookup name).2.put name symbol).push 0 := by
  refine ⟨{ (d.lookup name).1 with uses := (d.lookup name).1.uses.push (d.lookup name).2.rom.size }, (fst_lookup d name).1, ?_, rfl⟩
  rw [Array.toList_push, (fst_lookup d name).2, (snd_lookup d name).1]

end Draft

/-! ## Reading -/

/-- The value of a symbol while the program is read. -/
def unresolved (name : Bytes) : Nat := (predefined? name).getD 0

namespace Draft

/-- The draft holds what the statements read so far say, and nothing is wrong with them. -/
structure Tracks (d : Draft) (program : List Statement) : Prop where
  errors : d.errors = []
  rom : d.rom.toList = Assembly.words unresolved program
  order : d.order.toList = (mentions program).eraseDups
  known : ∀ name, name ∈ d.symbols ↔ name ∈ mentions program
  free : ∀ name ∈ mentions program, predefined? name = none
  address : ∀ name, d.address name = if name ∈ labelNames program then (labelAddress program name : Int) else unplaced
  uses : ∀ name, predefined? name = none → ∀ i, i ∈ d.uses name ↔ UsedAt program name i

theorem tracks_nil (pos : Position) : Tracks { pos } [] where
  errors := rfl
  rom := rfl
  order := rfl
  known := by simp [mentions]
  free := by simp [mentions]
  address := by simp [Draft.address, labelNames]
  uses := by simp [Draft.uses, UsedAt]

variable {d d' : Draft} {program : List Statement} {s : Statement} {name : Bytes}

theorem Tracks.size_rom (h : d.Tracks program) : d.rom.size = size program := by
  rw [← Array.length_toList, h.rom, length_words]

theorem Tracks.placed_iff (h : d.Tracks program) : d.address name ≠ unplaced ↔ name ∈ labelNames program := by
  rw [h.address]
  by_cases hlabel : name ∈ labelNames program
  · rw [if_pos hlabel, unplaced]
    exact iff_of_true (by omega) hlabel
  · rw [if_neg hlabel]
    exact iff_of_false (not_not_intro rfl) hlabel

theorem Tracks.of_eq (h : d.Tracks program) (herrors : d'.errors = d.errors) (hrom : d'.rom = d.rom)
    (hsymbols : d'.symbols = d.symbols) (horder : d'.order = d.order) : d'.Tracks program where
  errors := herrors.trans h.errors
  rom := hrom ▸ h.rom
  order := horder ▸ h.order
  known := hsymbols ▸ h.known
  free := h.free
  address other := by rw [← h.address other, Draft.address, Draft.address, hsymbols]
  uses other hfree i := by rw [← h.uses other hfree i, Draft.uses, Draft.uses, hsymbols]

theorem words_concat (value : Bytes → Nat) (program : List Statement) (s : Statement) :
    Assembly.words value (program ++ [s]) = Assembly.words value program ++ (s.word? value).toList := by
  cases hs : s.word? value <;> simp [Assembly.words, hs]

theorem address_concat_of_ne (hs : s ≠ .label name) (program : List Statement) :
    (if name ∈ labelNames (program ++ [s]) then (labelAddress (program ++ [s]) name : Int) else unplaced) =
      if name ∈ labelNames program then (labelAddress program name : Int) else unplaced := by
  have hmem : name ∈ labelNames (program ++ [s]) ↔ name ∈ labelNames program := by
    simp only [mem_labelNames, List.mem_append, List.mem_singleton, Ne.symm hs, or_false]
  by_cases hlabel : name ∈ labelNames program
  · rw [if_pos (hmem.mpr hlabel), if_pos hlabel, labelAddress_append hlabel]
  · rw [if_neg (mt hmem.mp hlabel), if_neg hlabel]

theorem Tracks.push {i : Instruction} (h : d.Tracks program) (hmention : s.mention? = none)
    (hword : s.word? unresolved = some i) : (d.push i).Tracks (program ++ [s]) := by
  have hmentions : mentions (program ++ [s]) = mentions program := by rw [mentions_concat, hmention]; simp
  refine ⟨h.errors, ?_, hmentions ▸ h.order, hmentions ▸ h.known, hmentions ▸ h.free, fun other => ?_, fun other hfree j => ?_⟩
  · rw [words_concat, hword, ← h.rom]
    exact Array.toList_push
  · rw [address_concat_of_ne]
    · exact h.address other
    · rintro rfl
      simp [Statement.mention?] at hmention
  · rw [usedAt_concat, or_iff_left]
    · exact h.uses other hfree j
    · rintro ⟨rfl, -⟩
      simp [Statement.mention?, hfree] at hmention

theorem Tracks.put {symbol : Symbol} (h : d.Tracks program) (hmention : s.mention? = some name) (hfree : predefined? name = none)
    (haddress : symbol.address =
      if name ∈ labelNames (program ++ [s]) then (labelAddress (program ++ [s]) name : Int) else unplaced)
    (huses : ∀ i, i ∈ symbol.uses.toList ↔ UsedAt (program ++ [s]) name i)
    (hrom : d'.rom.toList = d.rom.toList ++ (s.word? unresolved).toList)
    (hd' : d' = { (d.lookup name).2.put name symbol with rom := d'.rom }) : d'.Tracks (program ++ [s]) := by
  have hmentions : mentions (program ++ [s]) = mentions program ++ [name] := by rw [mentions_concat, hmention]; rfl
  rw [hd']
  refine ⟨?_, ?_, ?_, fun other => ?_, fun other => ?_, fun other => ?_, fun other hother i => ?_⟩
  · exact (snd_lookup d name).2.1.trans h.errors
  · exact hrom.trans (by rw [h.rom, words_concat])
  · refine (order_put_lookup d name symbol).trans ?_
    rw [hmentions, eraseDups_concat, h.order]
    simp only [h.known]
  · refine mem_put_lookup.trans ?_
    rw [h.known, hmentions, List.mem_append, List.mem_singleton, or_comm, eq_comm]
  · rw [hmentions, List.mem_append, List.mem_singleton]
    rintro (hmem | rfl)
    · exact h.free other hmem
    · exact hfree
  · refine (address_put_lookup d name symbol other).trans ?_
    split
    · rename_i heq
      rw [haddress, heq]
    · rename_i heq
      rw [address_concat_of_ne, h.address]
      rintro rfl
      exact heq (Option.some.inj hmention).symm
  · have hview : Draft.uses { (d.lookup name).2.put name symbol with rom := d'.rom } other =
        if name = other then symbol.uses.toList else d.uses other := uses_put_lookup d name symbol other
    rw [hview]
    split
    · rename_i heq
      rw [huses, heq]
    · rename_i heq
      rw [usedAt_concat, or_iff_left, h.uses other hother]
      rintro ⟨rfl, -⟩
      simp only [Statement.mention?, hother, if_true, Option.some.injEq] at hmention
      exact heq hmention.symm

theorem Tracks.declare (h : d.Tracks program) (hfree : predefined? name = none) (hnew : name ∉ labelNames program) :
    (d.declare name).Tracks (program ++ [.label name]) := by
  obtain ⟨symbol, haddress, huses, heq⟩ := declare_of_unplaced ((h.address name).trans (if_neg hnew))
  have hrom := (snd_lookup d name).1
  rw [heq]
  refine h.put rfl hfree ?_ (fun i => ?_) ?_ rfl
  · rw [haddress, h.size_rom, if_pos (by simp [mem_labelNames]), labelAddress_append_cons hnew]
  · rw [huses, h.uses name hfree, usedAt_concat]
    simp
  · exact (congrArg Array.toList hrom).trans (List.append_nil _).symm

theorem Tracks.use (h : d.Tracks program) (hfree : predefined? name = none) : (d.use name).Tracks (program ++ [.load (.symbol name)]) := by
  obtain ⟨symbol, haddress, huses, heq⟩ := d.use_eq name
  have hrom := (snd_lookup d name).1
  have hzero : Statement.word? unresolved (.load (.symbol name)) = some 0 := by simp [Statement.word?, unresolved, hfree]
  rw [heq]
  refine h.put (by simp [Statement.mention?, hfree]) hfree ?_ (fun i => ?_) ?_ rfl
  · rw [haddress, h.address, address_concat_of_ne (by simp)]
  · rw [huses, usedAt_concat, ← h.uses name hfree, h.size_rom]
    simp
  · rw [hzero, ← hrom]
    exact Array.toList_push

theorem Tracks.add (h : d.Tracks program) (hs : s.Readable) (hnew : ∀ name, s = .label name → name ∉ labelNames program) :
    (d.add s).Tracks (program ++ [s]) := by
  cases s with
  | label name => exact h.declare hs.2 (hnew name rfl)
  | load operand =>
    cases operand with
    | number n => exact h.push rfl rfl
    | symbol name =>
      cases hpre : predefined? name with
      | some value =>
        have hword : Statement.word? unresolved (.load (.symbol name)) = some value.toUInt16 := by
          simp [Statement.word?, unresolved, hpre]
        simpa [Draft.add, hpre] using h.push (by simp [Statement.mention?, hpre]) hword
      | none => simpa [Draft.add, hpre] using h.use hpre
  | compute dest comp jump => exact h.push rfl rfl

theorem Tracks.errors_declare (h : d.Tracks program) (hold : name ∈ labelNames program) : (d.declare name).errors ≠ [] := by
  obtain ⟨previous, heq⟩ := declare_of_placed (h.placed_iff.mpr hold)
  simp [heq, fail]

theorem readLine_of_blank {line : Bytes} (d : Draft) (hline : Bytes.code line = []) :
    d.readLine line = (d.enterLine 1).leaveLine line.length := by
  rw [Bytes.code, ← Bytes.beforeComment_eq, ← Bytes.firstVisible?_eq_none_iff] at hline
  simp only [readLine, hline]

theorem readLine_of_code {line : Bytes} (d : Draft) (hline : Bytes.code line ≠ []) :
    ∃ column, d.readLine line = leaveLine (match Statement.read (Bytes.code line) with
      | .ok statement => (d.enterLine column).add statement
      | .error cause => (d.enterLine column).fail cause) line.length := by
  rw [Bytes.code, ← Bytes.beforeComment_eq] at hline ⊢
  cases hvisible : Bytes.firstVisible? (Bytes.beforeComment line) with
  | none => exact absurd ((Bytes.firstVisible?_eq_none_iff _).mp hvisible) hline
  | some column =>
    refine ⟨column, ?_⟩
    cases hread : Statement.read (Bytes.squeeze (Bytes.beforeComment line)) with
    | ok statement => simp only [readLine, hvisible, hread]
    | error cause => simp only [readLine, hvisible, hread]

theorem errors_add (d : Draft) (s : Statement) (h : d.errors ≠ []) : (d.add s).errors ≠ [] := by
  cases s with
  | label name =>
    show (d.declare name).errors ≠ []
    by_cases hplaced : d.address name = unplaced
    · obtain ⟨symbol, -, -, heq⟩ := declare_of_unplaced hplaced
      rw [heq]
      exact (snd_lookup d name).2.1 ▸ h
    · obtain ⟨previous, heq⟩ := declare_of_placed hplaced
      simp [heq, fail]
  | load operand =>
    cases operand with
    | number n => exact h
    | symbol name =>
      cases hpre : predefined? name with
      | some value => simpa [Draft.add, hpre, Draft.push] using h
      | none =>
        obtain ⟨symbol, -, -, heq⟩ := d.use_eq name
        simp only [Draft.add, hpre, heq]
        exact (snd_lookup d name).2.1 ▸ h
  | compute dest comp jump => exact h

theorem errors_readLine (d : Draft) (line : Bytes) (h : d.errors ≠ []) : (d.readLine line).errors ≠ [] := by
  by_cases hline : Bytes.code line = []
  · rw [d.readLine_of_blank hline]
    exact h
  · obtain ⟨column, heq⟩ := d.readLine_of_code hline
    rw [heq]
    cases Statement.read (Bytes.code line) with
    | ok statement => exact errors_add _ _ h
    | error cause => simp [leaveLine, fail]

theorem errors_feedLines (fault : Option ReadFault) (cut : Bool) (lines : List Bytes) (d : Draft) (h : d.errors ≠ []) :
    (Source.feedLines isFull readLine fault cut d lines).1.errors ≠ [] := by
  induction lines generalizing d with
  | nil => exact h
  | cons line rest ih =>
    rw [Source.feedLines]
    split
    · exact h
    · exact ih _ (d.errors_readLine line h)

theorem Tracks.not_isFull {d : Draft} {program : List Statement} (h : d.Tracks program) : d.isFull = false := by
  simp [isFull, h.errors, maxErrors]

theorem Tracks.readLine {d : Draft} {program : List Statement} (h : d.Tracks program) (hnodup : (labelNames program).Nodup)
    {line : Bytes} (hline : Bytes.code line ≠ []) :
    (∃ s, Statement.read (Bytes.code line) = .ok s ∧ (labelNames (program ++ [s])).Nodup ∧
        (d.readLine line).Tracks (program ++ [s])) ∨
      ((∀ s, Statement.read (Bytes.code line) = .ok s → ¬(labelNames (program ++ [s])).Nodup) ∧
        (d.readLine line).errors ≠ []) := by
  obtain ⟨column, heq⟩ := d.readLine_of_code hline
  have henter : (d.enterLine column).Tracks program := h.of_eq rfl rfl rfl rfl
  cases hread : Statement.read (Bytes.code line) with
  | error cause =>
    right
    rw [heq, hread]
    exact ⟨by simp, by simp [leaveLine, fail]⟩
  | ok s =>
    rw [hread] at heq
    by_cases hagain : ∃ name, s = .label name ∧ name ∈ labelNames program
    · obtain ⟨name, rfl, hmem⟩ := hagain
      right
      refine ⟨?_, by rw [heq]; exact henter.errors_declare hmem⟩
      rintro s hs hunique
      obtain rfl := Except.ok.inj hs
      exact (nodup_labelNames_concat.mp hunique).2 name rfl hmem
    · have hnew : ∀ name, s = .label name → name ∉ labelNames program :=
        fun name hs hmem => hagain ⟨name, hs, hmem⟩
      refine .inl ⟨s, rfl, nodup_labelNames_concat.mpr ⟨hnodup, hnew⟩, ?_⟩
      rw [heq]
      exact (henter.add (Statement.readable_of_read hread) hnew).of_eq rfl rfl rfl rfl

end Draft

/-- The statements that texts are read as, one by one. -/
def ReadAs (texts : List Bytes) (program : List Statement) : Prop :=
  List.Forall₂ (fun text s => Statement.read text = .ok s) texts program

/-- Reading either tracks all statements of the source, or finds something wrong: a line that is no statement, or a
label that is declared again. -/
theorem feedLines_spec (fault : Option ReadFault) (cut : Bool) (lines : List Bytes) {d : Draft} {before : List Statement}
    (h : d.Tracks before) (hbefore : (labelNames before).Nodup) :
    (∃ program, ReadAs (Bytes.codes lines) program ∧ (labelNames (before ++ program)).Nodup ∧
        (Source.feedLines Draft.isFull Draft.readLine fault cut d lines).1.Tracks (before ++ program) ∧
        (Source.feedLines Draft.isFull Draft.readLine fault cut d lines).2 = fault) ∨
      ((∀ program, ReadAs (Bytes.codes lines) program → ¬(labelNames (before ++ program)).Nodup) ∧
        (Source.feedLines Draft.isFull Draft.readLine fault cut d lines).1.errors ≠ []) := by
  induction lines generalizing d before with
  | nil =>
    left
    exact ⟨[], .nil, by simpa using hbefore, by simpa [Source.feedLines] using h, rfl⟩
  | cons line rest ih =>
    rw [Source.feedLines, h.not_isFull, Bytes.codes_cons]
    simp only [Bool.false_eq_true, if_false]
    by_cases hline : Bytes.code line = []
    · rw [if_pos hline, d.readLine_of_blank hline]
      exact ih (h.of_eq rfl rfl rfl rfl) hbefore
    · rw [if_neg hline]
      have hassoc : ∀ s tail, before ++ s :: tail = before ++ [s] ++ tail := by simp
      rcases h.readLine hbefore hline with ⟨s, hread, hnodup, htracks⟩ | ⟨hnone, herrors⟩
      · rcases ih htracks hnodup with ⟨tail, htail, hrest⟩ | ⟨hnone, herrors⟩
        · exact .inl ⟨s :: tail, .cons hread htail, by rwa [hassoc]⟩
        · refine .inr ⟨?_, herrors⟩
          rintro _ (_ | ⟨hread', htail⟩)
          obtain rfl := Except.ok.inj (hread.symm.trans hread')
          rw [hassoc]
          exact hnone _ htail
      · refine .inr ⟨?_, Draft.errors_feedLines fault cut rest _ herrors⟩
        rintro _ (_ | ⟨hread, -⟩) hunique
        rw [hassoc, labelNames_append] at hunique
        exact hnone _ hread hunique.of_append_left

/-! ## Patching -/

theorem getElem?_patch (symbol : Symbol) (rom : Array Instruction) (value : Int) (i : Nat) :
    (symbol.patch rom value)[i]? = if i ∈ symbol.uses.toList ∧ i < rom.size then some (Word.ofInt value) else rom[i]? := by
  unfold Symbol.patch
  rw [← Array.foldl_toList]
  induction symbol.uses.toList generalizing rom with
  | nil => simp
  | cons use rest ih =>
    rw [List.foldl_cons, ih, Array.size_setIfInBounds, Array.getElem?_setIfInBounds]
    by_cases hrest : i ∈ rest
    · by_cases hlt : i < rom.size <;> simp [hrest, hlt]
      grind
    · by_cases huse : use = i
      · subst huse
        by_cases hlt : use < rom.size <;> simp [hrest, hlt]
      · simp [hrest, huse, Ne.symm huse]

theorem ofInt_natCast (n : Nat) : Word.ofInt n = n.toUInt16 := by
  have hmod : ((n : Int) % 65536).toNat % 65536 = n % 65536 := by omega
  rw [← UInt16.toNat_inj, Word.ofInt, UInt16.ofInt]
  simpa using hmod

theorem toList_patch {symbol : Symbol} {rom : Array Instruction} {value : Bytes → Nat} {program : List Statement} {name : Bytes}
    (hrom : rom.toList = words value program) (huses : ∀ i, i ∈ symbol.uses.toList ↔ UsedAt program name i) (n : Nat) :
    (symbol.patch rom n).toList = words (Function.update value name n) program := by
  have hget : ∀ i : Nat, rom[i]? = (words value program)[i]? := by
    intro i
    rw [← hrom, Array.getElem?_toList]
  refine List.ext_getElem? fun i => ?_
  rw [Array.getElem?_toList, getElem?_patch, hget]
  by_cases hused : UsedAt program name i
  · have hlt : i < rom.size := by
      have hsome := getElem?_words_of_usedAt value hused
      rw [← hget] at hsome
      exact (Array.getElem?_eq_some_iff.mp hsome).1
    rw [if_pos ⟨(huses i).mpr hused, hlt⟩, getElem?_words_of_usedAt _ hused, Function.update_self, ofInt_natCast]
  · rw [if_neg fun h => hused ((huses i).mp h.1), getElem?_words_update hused]

/-- The value of a symbol once the values of some symbols are written. -/
def valueAfter (program : List Statement) (done : List Bytes) (name : Bytes) : Nat :=
  if done.contains name then symbolValue program name else unresolved name

theorem valueAfter_concat (program : List Statement) (done : List Bytes) (name : Bytes) :
    valueAfter program (done ++ [name]) = Function.update (valueAfter program done) name (symbolValue program name) := by
  funext other
  by_cases heq : other = name
  · simp [valueAfter, heq]
  · simp [valueAfter, heq]

/-- The values of some symbols are written. -/
structure Patched.Holds (p : Patched) (program : List Statement) (done : List Bytes) : Prop where
  next : p.next = variableBase + (done.filter (isVariable program)).length
  rom : p.rom.toList = words (valueAfter program done) program

theorem Patched.Holds.resolve {p : Patched} {d : Draft} {program : List Statement} {done rest : List Bytes} {name : Bytes}
    (h : p.Holds program done) (hd : d.Tracks program) (horder : (mentions program).eraseDups = done ++ name :: rest) :
    (p.resolve d.symbols name).Holds program (done ++ [name]) := by
  have hmention : name ∈ mentions program := by
    rw [← List.mem_eraseDups, horder]
    simp
  have hfree := hd.free name hmention
  obtain ⟨symbol, hsymbol⟩ : ∃ symbol, d.symbols[name]? = some symbol := by
    rw [← Option.isSome_iff_exists, ← Std.HashMap.mem_iff_isSome_getElem?, hd.known]
    exact hmention
  have haddress := (Draft.address_of_some hsymbol).symm.trans (hd.address name)
  have huses := hd.uses name hfree
  rw [Draft.uses_of_some hsymbol] at huses
  unfold Patched.resolve
  simp only [hsymbol]
  by_cases hlabel : name ∈ labelNames program
  · have hplaced : symbol.address ≠ unplaced := Draft.address_of_some hsymbol ▸ hd.placed_iff.mpr hlabel
    have hfixed : isVariable program name = false := by simp [isVariable, hlabel]
    rw [if_neg hplaced]
    refine ⟨?_, ?_⟩
    · simp [h.next, hfixed]
    · rw [haddress, if_pos hlabel, toList_patch h.rom huses, valueAfter_concat, symbolValue_of_label hfree hlabel]
  · have hvariable : isVariable program name = true := isVariable_iff.mpr ⟨hfree, hlabel⟩
    -- a symbol that is met and is no label is used somewhere
    obtain ⟨i, hi⟩ := exists_usedAt (((mem_mentions hfree).mp hmention).resolve_left hlabel)
    have hused : symbol.uses.isEmpty = false := by
      rw [← Array.isEmpty_toList, List.isEmpty_eq_false_iff]
      exact List.ne_nil_of_mem ((huses i).mpr hi)
    rw [if_pos (haddress.trans (if_neg hlabel)), hused, if_neg (by simp)]
    refine ⟨?_, ?_⟩
    · simp [h.next, hvariable, Nat.add_assoc]
    · rw [toList_patch h.rom huses, valueAfter_concat, symbolValue_of_variable hvariable, h.next,
        variableAddress_of_order horder hvariable]

theorem Patched.Holds.resolveAll {p : Patched} {d : Draft} {program : List Statement} {done : List Bytes} (rest : List Bytes)
    (h : p.Holds program done) (hd : d.Tracks program) (horder : (mentions program).eraseDups = done ++ rest) :
    (rest.foldl (Patched.resolve d.symbols) p).Holds program (done ++ rest) := by
  induction rest generalizing p done with
  | nil => simpa using h
  | cons name rest ih =>
    rw [List.append_cons]
    exact ih (h.resolve hd horder) (by rw [horder, List.append_cons])

theorem words_congr {value value' : Bytes → Nat} {program : List Statement}
    (h : ∀ name, .load (.symbol name) ∈ program → value name = value' name) : words value program = words value' program := by
  refine List.filterMap_congr fun s hs => ?_
  cases s with
  | label name => rfl
  | load operand =>
    cases operand with
    | number n => rfl
    | symbol name => rw [Statement.word?, Statement.word?, h name hs]
  | compute dest comp jump => rfl

/-- The words of a finished draft are those of the reference. -/
theorem Draft.Tracks.toList_words {d : Draft} {program : List Statement} (h : d.Tracks program) :
    d.words.toList = Assembly.words (symbolValue program) program := by
  have hstart : Patched.Holds { rom := d.rom } program [] := by
    refine ⟨rfl, h.rom.trans (words_congr fun name _ => ?_)⟩
    simp [valueAfter]
  have hend := hstart.resolveAll _ h (List.nil_append _).symm
  rw [Draft.words, ← Array.foldl_toList, h.order, hend.rom]
  refine words_congr fun name hload => ?_
  rw [valueAfter, ite_eq_left_iff, List.nil_append, List.contains_iff_mem, List.mem_eraseDups]
  intro hunmet
  cases hpre : predefined? name with
  | some value => simp [unresolved, symbolValue, hpre]
  | none => exact absurd ((mem_mentions hpre).mpr (.inr hload)) hunmet

/-! ## Programs -/

theorem Draft.entries_eq_nil_iff (d : Draft) : d.entries = [] ↔ d.errors = [] ∧ d.rom.size ≤ Image.maxInstructions := by
  simp only [Draft.entries]
  split
  · rename_i hlarge
    simp [Draft.fail]
    omega
  · rename_i hfits
    simp only [List.reverse_eq_nil_iff, iff_self_and]
    intro _
    omega

theorem assemble_eq_ok_iff_feed (name : Bytes) (source : Source) (rom : Array Instruction) :
    assemble name source = .ok rom ↔
      (source.feed Draft.isFull Draft.readLine { pos := { file := name } }).2 = none ∧
        (source.feed Draft.isFull Draft.readLine { pos := { file := name } }).1.entries = [] ∧
        (source.feed Draft.isFull Draft.readLine { pos := { file := name } }).1.words = rom := by
  unfold assemble
  obtain ⟨d, fault⟩ := source.feed Draft.isFull Draft.readLine { pos := { file := name } }
  cases fault with
  | some fault => simp
  | none =>
    simp only [true_and]
    cases d.entries <;> simp

theorem ReadAs.unique {texts : List Bytes} {xs ys : List Statement} (hx : ReadAs texts xs) (hy : ReadAs texts ys) :
    xs = ys := by
  induction hx generalizing ys with
  | nil =>
    cases hy
    rfl
  | cons hread _ ih =>
    cases hy with
    | cons hread' htail =>
      rw [hread] at hread'
      rw [Except.ok.inj hread', ih htail]

theorem ReadAs.of_append {xs ys : List Bytes} {program : List Statement} (h : ReadAs (xs ++ ys) program) :
    ∃ front back, program = front ++ back ∧ ReadAs xs front ∧ ReadAs ys back := by
  have hfront := List.forall₂_take xs.length h
  have hback := List.forall₂_drop xs.length h
  rw [List.take_left] at hfront
  rw [List.drop_left] at hback
  exact ⟨_, _, (List.take_append_drop xs.length program).symm, hfront, hback⟩

/-- A source is assembled exactly if it can be read to its end and its lines are statements that declare no label twice and
hold at most 32768 instructions. Its words are then those of the reference. -/
theorem assemble_eq_ok_iff (name : Bytes) (source : Source) (rom : Array Instruction) :
    assemble name source = .ok rom ↔
      source.fault = none ∧ ∃ program, ReadAs (Bytes.codes source.lines) program ∧ (labelNames program).Nodup ∧
        size program ≤ Image.maxInstructions ∧ rom.toList = words (symbolValue program) program := by
  have hstart := Draft.tracks_nil { file := name }
  rw [assemble_eq_ok_iff_feed, Source.feed, Draft.entries_eq_nil_iff]
  rcases feedLines_spec source.fault source.cut source.lines hstart List.nodup_nil with
    ⟨program, hread, hnodup, htracks, hfault⟩ | ⟨hnone, herrors⟩
  · rw [hfault, ← Array.toList_inj, htracks.toList_words, htracks.size_rom]
    constructor
    · rintro ⟨hnofault, ⟨-, hsize⟩, hrom⟩
      exact ⟨hnofault, program, hread, hnodup, hsize, hrom.symm⟩
    · rintro ⟨hnofault, other, hother, -, hsize, hrom⟩
      obtain rfl := hread.unique hother
      exact ⟨hnofault, ⟨htracks.errors, hsize⟩, hrom.symm⟩
  · constructor
    · rintro ⟨-, ⟨hnoerror, -⟩, -⟩
      exact absurd hnoerror herrors
    · rintro ⟨-, program, hread, hnodup, -⟩
      exact absurd hnodup (hnone program hread)

theorem assemble_of_readable (name : Bytes) {program : List Statement} (hreadable : ∀ s ∈ program, s.Readable)
    (hnodup : (labelNames program).Nodup) (hsize : size program ≤ Image.maxInstructions)
    (hlength : ∀ s ∈ program, s.text.length ≤ Source.lineLimit) :
    assemble name (Source.ofBytes ((program.map Statement.text).flatMap (· ++ [10]))) =
      .ok (words (symbolValue program) program).toArray := by
  have hplain : ∀ line ∈ program.map Statement.text, line.all Bytes.isPlain = true := by
    simpa using fun s hs => Statement.all_isPlain_text (hreadable s hs).wellNamed
  have hlines : ∀ line ∈ ((program.map Statement.text).flatMap (· ++ [10])).splitOn 10, line.length ≤ Source.lineLimit := by
    rw [Bytes.splitOn_flatMap_lines fun line hmem => Bytes.not_mem_of_plain (hplain line hmem)]
    simpa [or_imp, forall_and] using hlength
  rw [assemble_eq_ok_iff, Bytes.codes_lines _ hlines, Bytes.codes_of_plain hplain (by simpa using fun s _ => s.text_ne_nil)]
  refine ⟨(Bytes.fault_ofBytes_eq_none_iff _).mpr hlines, program, ?_, hnodup, hsize, rfl⟩
  -- each statement is read from its own text
  rw [ReadAs, List.forall₂_map_left_iff, List.forall₂_same]
  exact fun s hs => (Statement.read_eq_ok_iff _ _).mpr (hreadable s hs).written

theorem readAs_iff_written (texts : List Bytes) (program : List Statement) :
    ReadAs texts program ↔ List.Forall₂ Written texts program := by
  constructor
  · exact List.Forall₂.imp fun _ _ => (Statement.read_eq_ok_iff _ _).mp
  · exact List.Forall₂.imp fun _ _ => (Statement.read_eq_ok_iff _ _).mpr

/-- Texts are assembled as the reference says: exactly those are accepted whose lines, without comments, white space and
empty lines, are written statements that declare no label twice and hold at most 32768 instructions. -/
theorem assemble_ofBytes_eq_ok_iff (name text : Bytes) (rom : Array Instruction)
    (hlines : ∀ line ∈ text.splitOn 10, line.length ≤ Source.lineLimit) :
    assemble name (Source.ofBytes text) = .ok rom ↔
      ∃ program, List.Forall₂ Written (Bytes.codes (text.splitOn 10)) program ∧ (labelNames program).Nodup ∧
        size program ≤ Image.maxInstructions ∧ rom.toList = words (symbolValue program) program := by
  rw [assemble_eq_ok_iff, Bytes.codes_lines text hlines]
  simp only [(Bytes.fault_ofBytes_eq_none_iff text).mpr hlines, readAs_iff_written, true_and]

/-- Variables in order of first use, around a label that is used before its declaration. -/
theorem assemble_variables :
    let text := ascii "@x\n@y // the second\n@END\n@x\n(END)\n MD = A + D ; JGT\n\n@z"
    (∀ line ∈ text.splitOn 10, line.length ≤ Source.lineLimit) ∧
      assemble [] (Source.ofBytes text) = .ok #[16, 17, 4, 16, 0xE099, 18] := by
  refine ⟨by decide +kernel, (assemble_ofBytes_eq_ok_iff [] _ _ (by decide +kernel)).mpr ?_⟩
  refine ⟨[.load (.symbol (ascii "x")), .load (.symbol (ascii "y")), .load (.symbol (ascii "END")),
    .load (.symbol (ascii "x")), .label (ascii "END"), .compute ⟨false, true, true⟩ .dPlusA .gt,
    .load (.symbol (ascii "z"))], ?_, by decide +kernel, by decide +kernel, by decide +kernel⟩
  rw [← readAs_iff_written]
  unfold ReadAs
  decide +kernel

end HackPlatform.Assembly
