import Mathlib.Data.List.Sort
import HackPlatform.Proofs.Volume.Locate
import HackPlatform.Proofs.Volume.Pattern

/-!
# Stack code is found in spite of other files

A file that is not stack code may be put beside stack code: what is found afterwards is the same (`glob?_put`), although the path of the
directory is itself a pattern. A pattern that leads to some file is not malformed, so the names of new files cannot show that it is; and a
new file that matches a part of the pattern that stands for directories has nothing inside.
-/

namespace HackPlatform

/-! ## Sorted names -/

theorem Bytes.filter_mergeSort (texts : List Bytes) (p : Bytes → Bool) :
    texts.mergeSort.filter p = (texts.filter p).mergeSort := by
  have hsorted : ∀ texts : List Bytes, texts.mergeSort.Pairwise (· ≤ ·) := List.pairwise_mergeSort' (· ≤ ·)
  refine List.Perm.eq_of_pairwise (fun _ _ _ _ => List.le_antisymm) ((hsorted _).filter p) (hsorted _) ?_
  exact ((List.mergeSort_perm texts _).filter p).trans (List.mergeSort_perm _ _).symm

namespace Volume

variable {v : Volume}

/-- The location can take a file that is not stack code. -/
structure Place (v : Volume) (parent : Location) (name : Bytes) : Prop where
  ordinary : Path.Ordinary name
  other : ¬Code.fileEnding <:+ name
  free : v.get? (parent ++ [name]) ≠ some .directory

/-! ## Listing -/

/-- The name of a node, if it is in the directory. -/
def nameIn (loc : Location) (x : Location × Node) : Option Bytes := if x.1.dropLast == loc then x.1.getLast? else none

theorem filter_nameIn_put {parent loc : Location} {name : Bytes} (n : Node) {p : Bytes → Bool}
    (h : loc = parent → p name = false) :
    ((v.put (parent ++ [name]) n).nodes.filterMap (nameIn loc)).filter p = (v.nodes.filterMap (nameIn loc)).filter p := by
  -- what is or was at the location is not asked for
  have hlocation : ∀ n : Node, (nameIn loc (parent ++ [name], n)).filter p = none := by
    intro n
    by_cases hloc : parent = loc
    · simp [nameIn, hloc, h hloc.symm]
    · simp [nameIn, hloc]
  rw [put, List.filter_filterMap, List.filter_filterMap]
  rw [List.filterMap_cons_none (f := fun x => (nameIn loc x).filter p) (hlocation n), List.filterMap_filter]
  refine List.filterMap_congr fun x _ => ?_
  obtain ⟨key, node⟩ := x
  by_cases hkey : key = parent ++ [name]
  · rw [hkey, hlocation node]
    simp
  · simp [hkey]

theorem filter_list_put {parent loc : Location} {name : Bytes} (n : Node) {p : Bytes → Bool}
    (h : loc = parent → p name = false) :
    ((v.put (parent ++ [name]) n).list loc).filter p = (v.list loc).filter p := by
  show (List.filterMap (nameIn loc) _).mergeSort.filter p = (v.nodes.filterMap (nameIn loc)).mergeSort.filter p
  rw [Bytes.filter_mergeSort, Bytes.filter_mergeSort, filter_nameIn_put n h]

/-! ## Matches in a directory -/

/-- Does the path lead to a directory? -/
def isDirectory (v : Volume) (path : Bytes) : Bool :=
  match v.find path with
  | .ok .directory => true
  | _ => false

theorem isDirectory_iff {path : Bytes} :
    v.isDirectory path = true ↔ ∃ loc, v.locate path = .ok loc ∧ v.get? loc = some .directory := by
  rw [← find_eq_ok_iff, isDirectory]
  split <;> simp_all

/-- The paths in a directory whose names match a pattern that is not malformed. -/
def matching (v : Volume) (pattern : Pattern) (directory : Bytes) : List Bytes :=
  match v.locate directory with
  | .error _ => []
  | .ok loc =>
    if v.get? loc == some .directory then
      ((v.list loc).filter fun name => pattern.accepts? name == some true).map (Path.join directory)
    else []

theorem matchesIn?_eq_some {pattern : Pattern} (h : ∀ name, pattern.accepts? name ≠ none) (directory : Bytes) :
    v.matchesIn? pattern directory = some (v.matching pattern directory) := by
  have hlist : ∀ names : List Bytes, ∃ paths, (names.mapM fun name => (pattern.accepts? name).map fun accepted =>
      if accepted then [Path.join directory name] else []) = some paths ∧
      paths.flatten = (names.filter fun name => pattern.accepts? name == some true).map (Path.join directory) := by
    intro names
    induction names with
    | nil => exact ⟨[], rfl, rfl⟩
    | cons name rest ih =>
      obtain ⟨accepted, haccepted⟩ := Option.ne_none_iff_exists'.mp (h name)
      obtain ⟨paths, hpaths, hflatten⟩ := ih
      refine ⟨(if accepted then [Path.join directory name] else []) :: paths, ?_, ?_⟩
      · rw [List.mapM_cons, hpaths, haccepted]
        rfl
      · rw [List.flatten_cons, hflatten, List.filter_cons, haccepted]
        cases accepted <;> rfl
  unfold matchesIn? matching
  cases v.locate directory with
  | error cause => rfl
  | ok loc =>
    obtain ⟨paths, hpaths, hflatten⟩ := hlist (v.list loc)
    simp only [hpaths, bind, Option.bind, hflatten]
    split <;> rfl

theorem matching_eq_nil {directory : Bytes} (h : v.isDirectory directory = false) (pattern : Pattern) :
    v.matching pattern directory = [] := by
  unfold matching
  cases hlocate : v.locate directory with
  | error cause => rfl
  | ok loc =>
    have hno : v.get? loc ≠ some .directory := by
      intro hdirectory
      exact Bool.false_ne_true (h.symm.trans (isDirectory_iff.mpr ⟨loc, hlocate, hdirectory⟩))
    simp [hno]

theorem isDirectory_put {parent : Location} {name : Bytes} (hplace : Place v parent name) (text path : Bytes) :
    (v.put (parent ++ [name]) (.file text)).isDirectory path = v.isDirectory path := by
  have hsame := sameDirectories_put (by simp) hplace.free text
  rw [Bool.eq_iff_iff, isDirectory_iff, isDirectory_iff]
  simp only [hsame.locate, hsame.directory]

theorem filter_matching_put {parent : Location} {name directory : Bytes} (hplace : Place v parent name) (text : Bytes)
    {pattern : Pattern} {p : Bytes → Bool}
    (h : v.locate directory = .ok parent → pattern.accepts? name = some true → p (Path.join directory name) = false) :
    ((v.put (parent ++ [name]) (.file text)).matching pattern directory).filter p =
      (v.matching pattern directory).filter p := by
  have hsame := sameDirectories_put (by simp) hplace.free text
  cases hdirectory : v.isDirectory directory with
  | false =>
    rw [matching_eq_nil hdirectory, matching_eq_nil ((isDirectory_put hplace text directory).trans hdirectory)]
  | true =>
    obtain ⟨loc, hlocate, hget⟩ := isDirectory_iff.mp hdirectory
    unfold matching
    simp only [hsame.locate.mpr hlocate, hlocate, (hsame.directory loc).mpr hget, hget, beq_self_eq_true, if_true, List.filter_map,
      List.filter_filter]
    rw [filter_list_put]
    rintro rfl
    cases haccepted : pattern.accepts? name == some true with
    | false => exact Bool.and_false _
    | true => simp [h hlocate (by simpa using haccepted)]

theorem exists_of_mem_mapM {α β : Type} {f : α → Option β} {xs : List α} {ys : List β} (h : xs.mapM f = some ys) {y : β}
    (hy : y ∈ ys) : ∃ x ∈ xs, f x = some y := by
  induction xs generalizing ys with
  | nil =>
    obtain rfl : ys = [] := by simpa [eq_comm] using h
    exact absurd hy List.not_mem_nil
  | cons x rest ih =>
    simp only [List.mapM_cons, Option.bind_eq_bind, Option.bind_eq_some_iff, Option.pure_def, Option.some.injEq] at h
    obtain ⟨first, hfirst, others, hothers, rfl⟩ := h
    rcases List.mem_cons.mp hy with rfl | hy
    · exact ⟨x, List.mem_cons_self, hfirst⟩
    · obtain ⟨z, hz, hfz⟩ := ih hothers hy
      exact ⟨z, List.mem_cons_of_mem _ hz, hfz⟩

theorem exists_accepted {pattern : Pattern} {directory path : Bytes} {paths : List Bytes}
    (h : v.matchesIn? pattern directory = some paths) (hpath : path ∈ paths) :
    ∃ name, pattern.accepts? name = some true ∧ path = Path.join directory name := by
  unfold matchesIn? at h
  split at h
  · simp_all
  · split at h
    · simp only [Option.bind_eq_bind, Option.bind_eq_some_iff, Option.some.injEq] at h
      obtain ⟨lists, hlists, rfl⟩ := h
      obtain ⟨found, hfound, hmem⟩ := List.mem_flatten.mp hpath
      obtain ⟨name, -, hname⟩ := exists_of_mem_mapM hlists hfound
      obtain ⟨accepted, haccepted, rfl⟩ := Option.map_eq_some_iff.mp hname
      cases accepted with
      | false => exact absurd hmem (by simp)
      | true => exact ⟨name, haccepted, by simpa using hmem⟩
    · simp_all

/-! ## Matches of whole patterns -/

/-- The directories in which a pattern looks for its last name. -/
def patternDirectories? (v : Volume) (bound : Nat) (pattern : Bytes) : Option (List Bytes) :=
  if Pattern.isSpecial (patternDirectory (Path.split pattern).1) then v.globFor? bound (patternDirectory (Path.split pattern).1)
  else some [patternDirectory (Path.split pattern).1]

theorem globFor?_succ {pattern : Bytes} (hspecial : Pattern.isSpecial pattern = true) (bound : Nat) :
    v.globFor? (bound + 1) pattern = if ((Pattern.read pattern).accepts? []).isNone then none else
      (v.patternDirectories? bound pattern).bind fun directories =>
        (directories.mapM (v.matchesIn? (Pattern.read (Path.split pattern).2))).map List.flatten := by
  rw [globFor?]
  split
  · rfl
  · simp only [hspecial, Bool.not_true, Bool.false_eq_true, if_false, patternDirectories?]
    split
    · rename_i hnone
      rw [hnone]
      rfl
    · rename_i hsome
      rw [hsome]
      rfl

theorem mapM_matchesIn? {pattern : Pattern} (h : ∀ name, pattern.accepts? name ≠ none) (directories : List Bytes) :
    (directories.mapM (v.matchesIn? pattern)).map List.flatten = some (directories.flatMap (v.matching pattern)) := by
  have hmap : directories.mapM (v.matchesIn? pattern) = some (directories.map (v.matching pattern)) := by
    rw [show v.matchesIn? pattern = fun directory => some (v.matching pattern directory) from
      funext fun directory => matchesIn?_eq_some h directory]
    exact List.mapM_pure
  rw [hmap, List.flatMap]
  rfl

theorem globFor?_eq_some {pattern : Bytes} (hspecial : Pattern.isSpecial pattern = true) {bound : Nat} {found : List Bytes}
    (h : v.globFor? (bound + 1) pattern = some found) (hfound : found ≠ []) :
    ((Pattern.read pattern).accepts? []).isNone = false ∧
      (∀ name, (Pattern.read (Path.split pattern).2).accepts? name ≠ none) ∧
      ∃ directories, v.patternDirectories? bound pattern = some directories ∧ directories ≠ [] ∧
        found = directories.flatMap (v.matching (Pattern.read (Path.split pattern).2)) := by
  rw [globFor?_succ hspecial] at h
  split at h
  · exact absurd h (by simp)
  · rename_i hread
    obtain ⟨directories, hdirectories, hmatches⟩ := Option.bind_eq_some_iff.mp h
    have hanswers : ∀ name, (Pattern.read (Path.split pattern).2).accepts? name ≠ none := by
      obtain ⟨lists, hlists, rfl⟩ := Option.map_eq_some_iff.mp hmatches
      obtain ⟨path, hpath⟩ := List.exists_mem_of_ne_nil _ hfound
      obtain ⟨paths, hpaths, hmem⟩ := List.mem_flatten.mp hpath
      obtain ⟨directory, -, hdirectory⟩ := exists_of_mem_mapM hlists hpaths
      obtain ⟨name, hname, -⟩ := exists_accepted hdirectory hmem
      exact Pattern.accepts?_ne_none hname
    rw [mapM_matchesIn? hanswers, Option.some.injEq] at hmatches
    refine ⟨Bool.eq_false_iff.mpr hread, hanswers, directories, hdirectories, ?_, hmatches.symm⟩
    rintro rfl
    exact hfound hmatches.symm

section Put

variable {parent : Location} {name : Bytes}

theorem flatMap_matching (pattern : Pattern) (p : Bytes → Bool) {directories directories' : List Bytes}
    (h : directories'.filter v.isDirectory = directories.filter v.isDirectory) :
    directories'.flatMap (fun d => (v.matching pattern d).filter p) =
      directories.flatMap fun d => (v.matching pattern d).filter p := by
  have hfilter : ∀ ds : List Bytes, ds.flatMap (fun d => (v.matching pattern d).filter p) =
      (ds.filter v.isDirectory).flatMap fun d => (v.matching pattern d).filter p := by
    intro ds
    induction ds with
    | nil => rfl
    | cons d rest ih =>
      cases hd : v.isDirectory d with
      | false => rw [List.flatMap_cons, matching_eq_nil hd, List.filter_cons_of_neg (by simp [hd]), ← ih]; rfl
      | true => rw [List.flatMap_cons, List.filter_cons_of_pos hd, List.flatMap_cons, ih]
  rw [hfilter, hfilter directories, h]

theorem filter_isDirectory_matching_put (hplace : Place v parent name) (text : Bytes) (pattern : Pattern) (directory : Bytes) :
    ((v.put (parent ++ [name]) (.file text)).matching pattern directory).filter v.isDirectory =
      (v.matching pattern directory).filter v.isDirectory := by
  refine filter_matching_put hplace text fun hlocate _ => ?_
  rw [Bool.eq_false_iff]
  intro hdirectory
  obtain ⟨loc, hloc, hget⟩ := isDirectory_iff.mp hdirectory
  rw [eq_concat_of_locate_join hlocate hplace.ordinary hloc] at hget
  exact hplace.free hget

/-- The matches of patterns in `v'` are those in `v`, apart from paths that lead to no directory. -/
def GlobsAlike (v v' : Volume) (bound : Nat) : Prop :=
  ∀ pattern found, Pattern.isSpecial pattern = true → v.globFor? bound pattern = some found → found ≠ [] →
    ∃ found', v'.globFor? bound pattern = some found' ∧ found'.filter v.isDirectory = found.filter v.isDirectory

theorem GlobsAlike.patternDirectories? {v' : Volume} {bound : Nat} (h : GlobsAlike v v' bound) {pattern : Bytes}
    {directories : List Bytes} (hdirectories : v.patternDirectories? bound pattern = some directories) (hsome : directories ≠ []) :
    ∃ directories', v'.patternDirectories? bound pattern = some directories' ∧
      directories'.filter v.isDirectory = directories.filter v.isDirectory := by
  unfold Volume.patternDirectories? at hdirectories ⊢
  split at hdirectories
  · rename_i hspecial
    rw [if_pos hspecial]
    exact h _ _ hspecial hdirectories hsome
  · rename_i hspecial
    rw [if_neg hspecial]
    exact ⟨directories, hdirectories, rfl⟩

/-- Induction on the bound: a new file among the matches is no directory, so whatever is looked for inside of the matches is the
same. -/
theorem globsAlike_put (hplace : Place v parent name) (text : Bytes) (bound : Nat) :
    GlobsAlike v (v.put (parent ++ [name]) (.file text)) bound := by
  induction bound with
  | zero => exact fun _ _ _ h => absurd h (by simp [globFor?])
  | succ bound ih =>
    intro pattern found hspecial h hfound
    obtain ⟨hread, hanswers, directories, hdirectories, hsome, rfl⟩ := globFor?_eq_some hspecial h hfound
    obtain ⟨directories', hdirectories', hsame⟩ := ih.patternDirectories? hdirectories hsome
    refine ⟨directories'.flatMap ((v.put (parent ++ [name]) (.file text)).matching (Pattern.read (Path.split pattern).2)), ?_, ?_⟩
    · rw [globFor?_succ hspecial, hread, if_neg (by simp), hdirectories', Option.bind_some, mapM_matchesIn? hanswers]
    · simp only [List.filter_flatMap, filter_isDirectory_matching_put hplace text]
      exact flatMap_matching _ _ hsame

theorem stackCode_pattern (path : Bytes) : Pattern.isSpecial (Path.join path (42 :: Code.fileEnding)) = true ∧
    (Path.split (Path.join path (42 :: Code.fileEnding))).2 = 42 :: Code.fileEnding := by
  have hname : Path.Ordinary (42 :: Code.fileEnding) :=
    Path.IsEnding.ordinary (show Path.IsEnding Code.fileEnding by decide) (show Path.separator ∉ [42] by decide)
  have hends := (Path.join_ordinary path hname.names hname).2
  refine ⟨?_, hends.split hname.noSeparator⟩
  obtain ⟨front, hfront, -⟩ := hends
  rw [hfront]
  simp [Pattern.isSpecial]

theorem suffix_of_mem_glob? {path file : Bytes} {files : List Bytes}
    (h : v.glob? (Path.join path (42 :: Code.fileEnding)) = some files) (hfile : file ∈ files) : Code.fileEnding <:+ file := by
  obtain ⟨hspecial, hlast⟩ := stackCode_pattern path
  obtain ⟨-, hanswers, directories, -, -, rfl⟩ := globFor?_eq_some hspecial h (List.ne_nil_of_mem hfile)
  obtain ⟨directory, -, hmem⟩ := List.mem_flatMap.mp hfile
  obtain ⟨name, hname, rfl⟩ := exists_accepted (matchesIn?_eq_some hanswers directory) hmem
  rw [hlast] at hname
  obtain ⟨stem, rfl, hstem⟩ := Pattern.suffix_of_accepts hname
  have hordinary := Path.IsEnding.ordinary (show Path.IsEnding Code.fileEnding by decide) hstem
  obtain ⟨front, hfront, -⟩ := (Path.join_ordinary directory hordinary.names hordinary).2
  exact ⟨front ++ stem, by rw [hfront, List.append_assoc]⟩

theorem matching_put (hplace : Place v parent name) (text directory : Bytes) :
    (v.put (parent ++ [name]) (.file text)).matching (Pattern.read (42 :: Code.fileEnding)) directory =
      v.matching (Pattern.read (42 :: Code.fileEnding)) directory := by
  have hall : List.filter (fun _ => true) _ = List.filter (fun _ => true) (v.matching (Pattern.read (42 :: Code.fileEnding)) directory) :=
    filter_matching_put hplace text fun _ haccepted => by
      obtain ⟨stem, hstem, -⟩ := Pattern.suffix_of_accepts haccepted
      exact absurd ⟨stem, hstem.symm⟩ hplace.other
  simpa using hall

/-- The stack code that a directory's path stands for does not change when another file is made. -/
theorem glob?_put (hplace : Place v parent name) (text : Bytes) {path : Bytes} {files : List Bytes}
    (h : v.glob? (Path.join path (42 :: Code.fileEnding)) = some files) (hfiles : files ≠ []) :
    (v.put (parent ++ [name]) (.file text)).glob? (Path.join path (42 :: Code.fileEnding)) = some files := by
  obtain ⟨hspecial, hlast⟩ := stackCode_pattern path
  obtain ⟨hread, hanswers, directories, hdirectories, hsome, hfound⟩ := globFor?_eq_some hspecial h hfiles
  obtain ⟨directories', hdirectories', hsame⟩ := (globsAlike_put hplace text _).patternDirectories? hdirectories hsome
  rw [hlast] at hanswers hfound
  rw [glob?, globFor?_succ hspecial, hread, if_neg (by simp), hdirectories', Option.bind_some, hlast, mapM_matchesIn? hanswers,
    hfound, funext (matching_put hplace text)]
  have hflat := flatMap_matching (Pattern.read (42 :: Code.fileEnding)) (fun _ => true) hsame
  simp only [List.filter_true] at hflat
  rw [hflat]

theorem find_put_of_ne (hplace : Place v parent name) (text : Bytes) {path other : Bytes} (hends : Path.EndsWith path other)
    (hother : Path.Ordinary other) (hne : other ≠ name) {n : Node} :
    (v.put (parent ++ [name]) (.file text)).find path = .ok n ↔ v.find path = .ok n := by
  have hsame := sameDirectories_put (by simp) hplace.free text
  simp only [find_eq_ok_iff, hsame.locate]
  refine exists_congr fun loc => and_congr_right fun hlocate => ?_
  obtain ⟨directory, rfl⟩ := eq_concat_of_locate hlocate hends hother
  rw [get?_put_of_ne v fun hequal => hne (List.append_singleton_inj.mp hequal).2]

theorem find_put (hplace : Place v parent name) (text : Bytes) {path : Bytes} (hpath : Code.fileEnding <:+ path) {n : Node} :
    (v.put (parent ++ [name]) (.file text)).find path = .ok n ↔ v.find path = .ok n := by
  have hending : Path.IsEnding Code.fileEnding := by decide
  obtain ⟨stem, rfl⟩ := hpath
  exact find_put_of_ne hplace text (Path.endsWith_append stem _) (hending.ordinary_append stem)
    fun hequal => hplace.other ⟨_, hequal⟩

end Put

/-! ## Saved files -/

/-- Files that are not stack code were made, one after the other. -/
inductive Saved (v : Volume) : Volume → Prop
  | refl : Saved v v
  | put {v' : Volume} {parent : Location} {name : Bytes} (h : Saved v v') (hplace : Place v' parent name) (text : Bytes) :
    Saved v (v'.put (parent ++ [name]) (.file text))

namespace Saved

variable {v' : Volume}

theorem trans {v'' : Volume} (h : Saved v v') (h' : Saved v' v'') : Saved v v'' := by
  induction h' with
  | refl => exact h
  | put _ hplace text ih => exact ih.put hplace text

theorem directories (h : Saved v v') : SameDirectories v v' := by
  induction h with
  | refl => exact ⟨rfl, fun _ => Iff.rfl⟩
  | put _ hplace text ih =>
    have hput := sameDirectories_put (by simp) hplace.free text
    exact ⟨hput.workingDirectory.trans ih.workingDirectory, fun loc => (hput.directory loc).trans (ih.directory loc)⟩

theorem medium (h : Saved v v') : v'.medium = v.medium := by
  induction h with
  | refl => rfl
  | put _ _ _ ih => exact ih

theorem find (h : Saved v v') {path : Bytes} (hpath : Code.fileEnding <:+ path) {n : Node} :
    v'.find path = .ok n ↔ v.find path = .ok n := by
  induction h with
  | refl => exact Iff.rfl
  | put _ hplace text ih => exact (find_put hplace text hpath).trans ih

theorem glob? (h : Saved v v') {path : Bytes} {files : List Bytes}
    (hglob : v.glob? (Path.join path (42 :: Code.fileEnding)) = some files) (hfiles : files ≠ []) :
    v'.glob? (Path.join path (42 :: Code.fileEnding)) = some files := by
  induction h with
  | refl => exact hglob
  | put _ hplace text ih => exact glob?_put hplace text ih hfiles

theorem place (h : Saved v v') {parent : Location} {name : Bytes} (hplace : Place v parent name) : Place v' parent name :=
  ⟨hplace.ordinary, hplace.other, mt (h.directories.directory _).mp hplace.free⟩

end Saved

theorem place_of_locateNew {stem tail : Bytes} {loc : Location} (htail : Path.IsEnding tail)
    (hlonger : ¬Code.fileEnding <:+ tail) (hshorter : ¬tail <:+ Code.fileEnding) (h : v.locateNew (stem ++ tail) = .ok loc) :
    ∃ parent, loc = parent ++ [(Path.split stem).2 ++ tail] ∧ Place v parent ((Path.split stem).2 ++ tail) := by
  obtain ⟨hlocate, hfree⟩ := locate_of_locateNew h
  have hname := htail.ordinary_append stem
  obtain ⟨parent, rfl⟩ := eq_concat_of_locate hlocate (Path.endsWith_append stem tail) hname
  refine ⟨parent, rfl, hname, fun hsuffix => ?_, hfree⟩
  exact (List.suffix_or_suffix_of_suffix hsuffix (List.suffix_append _ tail)).elim hlonger hshorter

end Volume

end HackPlatform
