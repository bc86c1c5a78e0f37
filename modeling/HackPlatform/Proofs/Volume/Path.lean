import HackPlatform.Proofs.Text.Fields
import HackPlatform.Proofs.Text.Lines
import HackPlatform.Volume.Path

/-!
# The names of paths

A path is read as its names. Cleaning a path leaves a part of its names (`cleanNames`), and the last one if that is an ordinary name
(`names_clean`); the last name of a path decides its ending.
-/

namespace HackPlatform

theorem Bytes.joinWith_eq_intercalate (sep : Bytes) (texts : List Bytes) : joinWith sep texts = sep.intercalate texts := by
  induction texts with
  | nil => rfl
  | cons first rest ih =>
    cases rest with
    | nil => simp [joinWith]
    | cons next rest => rw [joinWith_cons_cons, ih, List.intercalate_cons_cons, List.append_assoc]

namespace Path

/-- A name that leads from a directory to something inside of it. -/
structure Ordinary (name : Bytes) : Prop where
  ne_nil : name ≠ []
  noSeparator : separator ∉ name
  ne_here : name ≠ here
  ne_above : name ≠ above

/-! ## Names -/

theorem names_append_separator (front rest : Bytes) : names (front ++ separator :: rest) = names front ++ names rest := by
  simp only [names, Bytes.pieces_eq_splitOn, List.splitOn_append_cons_self, List.filter_append]

theorem names_of_not_mem {name : Bytes} (hne : name ≠ []) (h : separator ∉ name) : names name = [name] := by
  simp [names, Bytes.pieces_eq_splitOn, List.splitOn_eq_singleton h, hne]

theorem Ordinary.names {name : Bytes} (h : Ordinary name) : names name = [name] := names_of_not_mem h.ne_nil h.noSeparator

theorem mem_names {path name : Bytes} (h : name ∈ names path) : name ≠ [] ∧ separator ∉ name := by
  rw [names, Bytes.pieces_eq_splitOn, List.mem_filter] at h
  exact ⟨by simpa using h.2, Bytes.notMem_of_mem_splitOn h.1⟩

theorem names_joinWith {parts : List Bytes} (h : ∀ name ∈ parts, name ≠ [] ∧ separator ∉ name) :
    names (Bytes.joinWith [separator] parts) = parts := by
  by_cases hparts : parts = []
  · rw [hparts]
    rfl
  · rw [names, Bytes.pieces_eq_splitOn, Bytes.joinWith_eq_intercalate,
      List.splitOn_intercalate separator (fun name hname => (h name hname).2) hparts, List.filter_eq_self]
    exact fun name hname => by simpa using (h name hname).1

/-! ## The last name -/

/-- The path ends with the name, and only slashes separate it from what stands in front of it. -/
def EndsWith (path name : Bytes) : Prop := ∃ front, path = front ++ name ∧ (front = [] ∨ front.getLast? = some separator)

namespace EndsWith

variable {path name : Bytes}

theorem names (h : EndsWith path name) (hname : Ordinary name) : ∃ parts, Path.names path = parts ++ [name] := by
  obtain ⟨front, rfl, rfl | hfront⟩ := h
  · exact ⟨[], hname.names⟩
  · obtain ⟨start, rfl⟩ := List.getLast?_eq_some_iff.mp hfront
    refine ⟨Path.names start, ?_⟩
    rw [List.append_assoc, List.singleton_append, names_append_separator, hname.names]

theorem split (h : EndsWith path name) (hname : separator ∉ name) : (split path).2 = name := by
  obtain ⟨front, rfl, hfront⟩ := h
  have htaken : ∀ b ∈ name.reverse, (b != separator) = true := by
    intro b hb
    simpa using ne_of_mem_of_not_mem (List.mem_reverse.mp hb) hname
  have hstop : front.reverse.takeWhile (· != separator) = [] := by
    rcases hfront with rfl | hlast
    · rfl
    · obtain ⟨start, rfl⟩ := List.getLast?_eq_some_iff.mp hlast
      simp
  simp only [Path.split, List.reverse_append, List.takeWhile_append_of_pos htaken, hstop, List.append_nil, List.reverse_reverse]

theorem ending (h : EndsWith path name) (hname : separator ∉ name) : ending path = ending name := by
  have hself : EndsWith name name := ⟨[], rfl, .inl rfl⟩
  simp only [Path.ending, h.split hname, hself.split hname]

end EndsWith

/-! ## Cleaning -/

/-- The names that are left when a path with these names is cleaned. -/
def cleanNames (absolute : Bool) (parts : List Bytes) : List Bytes := (parts.foldl (cleanName absolute) []).reverse

theorem cleanNames_append_ordinary (absolute : Bool) (parts : List Bytes) {name : Bytes} (h : Ordinary name) :
    cleanNames absolute (parts ++ [name]) = cleanNames absolute parts ++ [name] := by
  simp [cleanNames, cleanName, h.ne_here, h.ne_above]

theorem cleanName_subset (absolute : Bool) (done : List Bytes) (name : Bytes) :
    cleanName absolute done name ⊆ name :: done := by
  intro x hx
  unfold cleanName at hx
  split at hx
  · exact List.mem_cons_of_mem _ hx
  · split at hx
    · split at hx
      · split at hx
        · exact hx
        · exact List.mem_cons_of_mem _ (List.mem_cons_of_mem _ hx)
      · split at hx
        · exact absurd hx List.not_mem_nil
        · exact hx
    · exact hx

theorem cleanNames_subset (absolute : Bool) (parts : List Bytes) : cleanNames absolute parts ⊆ parts := by
  have hfold : ∀ done, parts.foldl (cleanName absolute) done ⊆ parts ++ done := by
    induction parts with
    | nil => exact fun done => List.Subset.refl done
    | cons name rest ih =>
      intro done x hx
      rcases List.mem_append.mp (ih _ hx) with hx | hx
      · exact List.mem_append_left _ (List.mem_cons_of_mem _ hx)
      · rcases List.mem_cons.mp (cleanName_subset absolute done name hx) with rfl | hx
        · simp
        · exact List.mem_append_right _ hx
  intro x hx
  simpa using hfold [] (List.mem_reverse.mp hx)

theorem head?_joinWith {parts : List Bytes} (h : ∀ name ∈ parts, name ≠ [] ∧ separator ∉ name) :
    (Bytes.joinWith [separator] parts).head? ≠ some separator := by
  cases parts with
  | nil => simp [Bytes.joinWith]
  | cons first rest =>
    obtain ⟨hne, hnot⟩ := h first List.mem_cons_self
    obtain ⟨b, tail, rfl⟩ := List.exists_cons_of_ne_nil hne
    simp only [Bytes.joinWith, List.cons_append, List.head?_cons, ne_eq, Option.some.injEq]
    exact fun hb => hnot (by simp [hb])

theorem endsWith_joinWith (parts : List Bytes) (name : Bytes) :
    EndsWith (Bytes.joinWith [separator] (parts ++ [name])) name := by
  cases parts with
  | nil => exact ⟨[], by simp [Bytes.joinWith], .inl rfl⟩
  | cons first rest =>
    refine ⟨first ++ (rest.map ([separator] ++ ·)).flatten ++ [separator], ?_, .inr List.getLast?_concat⟩
    simp [Bytes.joinWith]

theorem names_clean {path name : Bytes} {parts : List Bytes} (hparts : names path = parts ++ [name]) (hname : Ordinary name) :
    names (clean path) = cleanNames (isAbsolute path) (names path) ∧ isAbsolute (clean path) = isAbsolute path ∧
      EndsWith (clean path) name := by
  have hall : ∀ x ∈ cleanNames (isAbsolute path) (names path), x ≠ [] ∧ separator ∉ x :=
    fun x hx => mem_names (cleanNames_subset _ _ hx)
  have hlast := cleanNames_append_ordinary (isAbsolute path) parts hname
  rw [← hparts] at hlast
  have hjoined : Bytes.joinWith [separator] (cleanNames (isAbsolute path) (names path)) ≠ [] := by
    intro hnil
    have hnames := names_joinWith hall
    rw [hnil, hlast] at hnames
    exact absurd hnames (by simp [names, Bytes.pieces, Bytes.piecesFrom])
  have hends := endsWith_joinWith (cleanNames (isAbsolute path) parts) name
  rw [← hlast] at hends
  have hclean : clean path =
      if isAbsolute path then separator :: Bytes.joinWith [separator] (cleanNames (isAbsolute path) (names path))
      else Bytes.joinWith [separator] (cleanNames (isAbsolute path) (names path)) := by
    unfold cleanNames at hjoined ⊢
    simp only [clean, List.isEmpty_iff, if_neg hjoined]
  rw [hclean]
  cases habsolute : isAbsolute path with
  | true =>
    rw [habsolute] at hall hends
    refine ⟨?_, rfl, ?_⟩
    · rw [if_pos rfl, ← List.nil_append (separator :: _), names_append_separator, names_joinWith hall]
      rfl
    · obtain ⟨front, hfront, hclosed⟩ := hends
      refine ⟨separator :: front, by simp [hfront], .inr ?_⟩
      rcases hclosed with rfl | hclosed
      · rfl
      · rw [List.getLast?_cons, hclosed]
        rfl
  | false =>
    rw [habsolute] at hall hends
    refine ⟨names_joinWith hall, ?_, hends⟩
    simpa [isAbsolute] using head?_joinWith hall

theorem join_eq_clean (directory : Bytes) {inner : Bytes} (hinner : inner ≠ []) :
    ∃ path, join directory inner = clean path ∧ names path = names directory ++ names inner ∧
      (directory ≠ [] → isAbsolute path = isAbsolute directory) := by
  cases directory with
  | nil => exact ⟨inner, by simp [join, hinner], rfl, fun h => absurd rfl h⟩
  | cons b rest =>
    refine ⟨b :: rest ++ separator :: inner, ?_, names_append_separator _ _, fun _ => rfl⟩
    rw [join, if_neg (by simp), List.append_assoc, List.singleton_append]

theorem join_ordinary (directory : Bytes) {inner name : Bytes} (hinner : names inner = [name]) (hname : Ordinary name) :
    (directory ≠ [] → names (join directory inner) = cleanNames (isAbsolute directory) (names directory) ++ [name] ∧
        isAbsolute (join directory inner) = isAbsolute directory) ∧ EndsWith (join directory inner) name := by
  have hne : inner ≠ [] := fun h => by simp [h, names, Bytes.pieces, Bytes.piecesFrom] at hinner
  obtain ⟨path, hjoin, hnames, habsolute⟩ := join_eq_clean directory hne
  rw [hinner] at hnames
  obtain ⟨hclean, hsame, hends⟩ := names_clean hnames hname
  rw [hjoin]
  refine ⟨fun hdirectory => ?_, hends⟩
  rw [hclean, hsame, habsolute hdirectory, hnames, cleanNames_append_ordinary _ _ hname]
  exact ⟨rfl, rfl⟩

/-! ## Endings -/

theorem exists_takeWhile_reverse (p : UInt8 → Bool) (text : Bytes) :
    ∃ front, text = front ++ (text.reverse.takeWhile p).reverse ∧ (∀ b ∈ (text.reverse.takeWhile p).reverse, p b = true) ∧
      (front = [] ∨ ∃ b, front.getLast? = some b ∧ p b = false) := by
  refine ⟨(text.reverse.dropWhile p).reverse, ?_, fun b hb => ?_, ?_⟩
  · rw [← List.reverse_append, List.takeWhile_append_dropWhile, List.reverse_reverse]
  · exact List.all_eq_true.mp List.all_takeWhile b (List.mem_reverse.mp hb)
  · rw [List.reverse_eq_nil_iff, List.getLast?_reverse]
    cases hrest : text.reverse.dropWhile p with
    | nil => exact .inl rfl
    | cons b rest =>
      have hb := List.head?_dropWhile_not p text.reverse
      rw [hrest] at hb
      exact .inr ⟨b, rfl, by simpa using hb⟩

theorem split_spec (path : Bytes) : path = (split path).1 ++ (split path).2 ∧ separator ∉ (split path).2 ∧
    ((split path).1 = [] ∨ (split path).1.getLast? = some separator) := by
  obtain ⟨front, hpath, hall, hfront⟩ := exists_takeWhile_reverse (· != separator) path
  have hfirst : (split path).1 = front := by
    have hlength := congrArg List.length hpath
    rw [List.length_append] at hlength
    show path.take (path.length - (path.reverse.takeWhile (· != separator)).reverse.length) = front
    generalize (path.reverse.takeWhile (· != separator)).reverse = file at *
    rw [hpath]
    exact List.take_left' (by simp)
  rw [hfirst]
  refine ⟨hpath, fun hmem => by simpa using hall _ hmem, hfront.imp id ?_⟩
  rintro ⟨b, hlast, hb⟩
  rw [hlast, show b = separator by simpa using hb]

theorem endsWith_append (stem tail : Bytes) : EndsWith (stem ++ tail) ((split stem).2 ++ tail) := by
  obtain ⟨hstem, -, hfront⟩ := split_spec stem
  exact ⟨(split stem).1, by rw [← List.append_assoc, ← hstem], hfront⟩

/-- The text can be the ending of a name: it has a dot at its start only, no slash, and is longer than the names of special
directories. -/
def IsEnding (tail : Bytes) : Prop := tail.head? = some 46 ∧ 46 ∉ tail.tail ∧ separator ∉ tail ∧ 3 ≤ tail.length

instance : DecidablePred IsEnding := fun _ => inferInstanceAs (Decidable (_ ∧ _))

namespace IsEnding

variable {tail : Bytes}

theorem ordinary (h : IsEnding tail) {stem : Bytes} (hstem : separator ∉ stem) : Ordinary (stem ++ tail) := by
  have hlength : 3 ≤ (stem ++ tail).length := by
    rw [List.length_append]
    exact Nat.le_trans h.2.2.2 (Nat.le_add_left _ _)
  refine ⟨?_, by simp [hstem, h.2.2.1], ?_, ?_⟩ <;> intro heq <;> rw [heq] at hlength <;> exact absurd hlength (by decide)

theorem ordinary_append (h : IsEnding tail) (stem : Bytes) : Ordinary ((split stem).2 ++ tail) :=
  h.ordinary (split_spec stem).2.1

theorem ending_append (h : IsEnding tail) (stem : Bytes) : ending (stem ++ tail) = tail := by
  have hname := (h.ordinary_append stem).noSeparator
  rw [(endsWith_append stem tail).ending hname]
  obtain ⟨hdot, hrest, -, -⟩ := h
  cases tail with
  | nil => exact absurd hdot (by simp)
  | cons b rest =>
    obtain rfl := Option.some.inj hdot
    have htaken : ∀ b ∈ rest.reverse, (b != 46) = true := by
      intro b hb
      simpa using ne_of_mem_of_not_mem (List.mem_reverse.mp hb) hrest
    have hself : EndsWith ((split stem).2 ++ 46 :: rest) ((split stem).2 ++ 46 :: rest) := ⟨[], rfl, .inl rfl⟩
    rw [ending, hself.split hname]
    simp only [List.contains_iff_mem, List.mem_append, List.mem_cons, true_or, or_true, if_true, List.reverse_append,
      List.reverse_cons, List.append_assoc, List.takeWhile_append_of_pos htaken]
    simp

theorem dropEnding_append (h : IsEnding tail) (stem : Bytes) : dropEnding (stem ++ tail) = stem := by
  rw [dropEnding, h.ending_append, Bytes.dropEnding, if_pos (by simp)]
  exact List.take_left' (by simp)

end IsEnding

theorem exists_of_ending {path : Bytes} (h : ending path ≠ []) : ∃ stem, path = stem ++ ending path := by
  by_cases hdot : (split path).2.contains 46 = true
  · have hending : ending path = 46 :: ((split path).2.reverse.takeWhile (· != 46)).reverse := if_pos hdot
    obtain ⟨hpath, -, -⟩ := split_spec path
    obtain ⟨front, hfile, hall, hfront⟩ := exists_takeWhile_reverse (· != 46) (split path).2
    rw [hending]
    generalize ((split path).2.reverse.takeWhile (· != 46)).reverse = rest at *
    rcases hfront with rfl | ⟨b, hlast, hb⟩
    · rw [List.contains_iff_mem, hfile] at hdot
      exact absurd (hall _ hdot) (by simp)
    · obtain ⟨start, rfl⟩ := List.getLast?_eq_some_iff.mp hlast
      obtain rfl : b = 46 := by simpa using hb
      refine ⟨(split path).1 ++ start, ?_⟩
      rw [hfile] at hpath
      simpa using hpath
  · exact absurd (if_neg hdot) h

theorem exists_stem (path : Bytes) : ∃ front stem, path = front ++ (stem ++ ending path) ∧ dropEnding path = front ++ stem ∧
    separator ∉ stem ++ ending path ∧ (front = [] ∨ front.getLast? = some separator) := by
  obtain ⟨hpath, hname, hfront⟩ := split_spec path
  have hself : EndsWith path (split path).2 := ⟨_, hpath, hfront⟩
  obtain ⟨stem, hstem⟩ : ∃ stem, (split path).2 = stem ++ ending path := by
    rw [hself.ending hname]
    by_cases h : ending (split path).2 = []
    · exact ⟨(split path).2, by rw [h, List.append_nil]⟩
    · exact exists_of_ending h
  rw [hstem] at hpath hname
  refine ⟨(split path).1, stem, hpath, ?_, hname, hfront⟩
  have hwhole : path = (split path).1 ++ stem ++ ending path := by rw [List.append_assoc, ← hpath]
  have hsuffix : (ending path).isSuffixOf path = true := List.isSuffixOf_iff_suffix.mpr ⟨_, hwhole.symm⟩
  rw [dropEnding, Bytes.dropEnding, if_pos hsuffix]
  clear hsuffix hself hname hstem hfront hpath
  generalize (split path).1 ++ stem = rest at hwhole ⊢
  generalize ending path = tail at hwhole ⊢
  rw [hwhole]
  exact List.take_left' (by simp)

theorem names_append_name {front : Bytes} (hfront : front = [] ∨ front.getLast? = some separator) :
    ∃ parts, ∀ name, name ≠ [] → separator ∉ name → names (front ++ name) = parts ++ [name] := by
  rcases hfront with rfl | hlast
  · exact ⟨[], fun name => names_of_not_mem⟩
  · obtain ⟨start, rfl⟩ := List.getLast?_eq_some_iff.mp hlast
    refine ⟨names start, fun name hne hname => ?_⟩
    rw [List.append_assoc, List.singleton_append, names_append_separator, names_of_not_mem hne hname]

theorem isAbsolute_append_name (front : Bytes) {name name' : Bytes} (hname : separator ∉ name) (hname' : separator ∉ name') :
    isAbsolute (front ++ name) = isAbsolute (front ++ name') := by
  have hrelative : ∀ {name : Bytes}, separator ∉ name → isAbsolute name = false := by
    intro name hname
    cases name with
    | nil => rfl
    | cons b rest =>
      rw [List.mem_cons, not_or] at hname
      simpa [isAbsolute] using fun heq => hname.1 heq.symm
  cases front with
  | nil => rw [List.nil_append, List.nil_append, hrelative hname, hrelative hname']
  | cons b rest => rfl

theorem base_spec (path : Bytes) : base path = [separator] ∨ separator ∉ base path := by
  unfold base
  split
  · exact .inr (by decide)
  · simp only
    split
    · exact .inl rfl
    · exact .inr (split_spec _).2.1

theorem exists_join_base {tail : Bytes} (h : IsEnding tail) (directory path : Bytes) :
    ∃ stem, join directory (base path ++ tail) = stem ++ tail := by
  rcases base_spec path with hbase | hbase
  · have hname : Ordinary tail := h.ordinary (List.not_mem_nil)
    have hinner : names (base path ++ tail) = [tail] := by
      rw [hbase]
      exact (names_append_separator [] tail).trans hname.names
    obtain ⟨front, hfront, -⟩ := (join_ordinary directory hinner hname).2
    exact ⟨front, hfront⟩
  · have hname := h.ordinary hbase
    obtain ⟨front, hfront, -⟩ := (join_ordinary directory hname.names hname).2
    exact ⟨front ++ base path, by rw [hfront, List.append_assoc]⟩

end Path

end HackPlatform
