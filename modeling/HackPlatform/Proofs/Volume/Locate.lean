import HackPlatform.Proofs.Volume.Path
import HackPlatform.Volume.Store

/-!
# Where paths lead

Where a path leads depends on nothing but the directories of a volume (`SameDirectories.locate`), and cleaning a path does not change it
(`follow_cleanNames`). So a file that is put where there is no directory changes nothing for paths that lead elsewhere, and the path it
was made for leads to it (`locate_of_locateNew`).
-/

namespace HackPlatform.Volume

variable {v v' : Volume} {loc l : Location}

theorem get?_put_self (v : Volume) (h : loc ≠ []) (n : Node) : (v.put loc n).get? loc = some n := by
  simp [get?, put, h]

theorem lookup_filter_of_ne (h : l ≠ loc) (nodes : List (Location × Node)) :
    (nodes.filter (·.1 != loc)).lookup l = nodes.lookup l := by
  induction nodes with
  | nil => rfl
  | cons x rest ih =>
    obtain ⟨key, n⟩ := x
    by_cases hkey : key = loc
    · subst hkey
      have hne : (l == key) = false := by simpa using h
      rw [List.filter_cons_of_neg (by simp), ih, List.lookup_cons, hne]
    · rw [List.filter_cons_of_pos (by simpa using hkey), List.lookup_cons, List.lookup_cons, ih]

theorem get?_put_of_ne (v : Volume) (h : l ≠ loc) (n : Node) : (v.put loc n).get? l = v.get? l := by
  have hne : (l == loc) = false := by simpa using h
  simp only [get?, put, List.lookup_cons, hne, lookup_filter_of_ne h]

theorem get?_erase_self (v : Volume) (h : loc ≠ []) : (v.erase loc).get? loc = none := by
  have hnone : ∀ nodes : List (Location × Node), (nodes.filter (·.1 != loc)).lookup loc = none := by
    intro nodes
    rw [List.lookup_eq_none_iff]
    intro x hx
    have hne : x.1 ≠ loc := by simpa using (List.mem_filter.mp hx).2
    simpa using hne.symm
  simp [get?, erase, h, hnone]

theorem get?_erase_of_ne (v : Volume) (h : l ≠ loc) : (v.erase loc).get? l = v.get? l := by
  simp only [get?, erase, lookup_filter_of_ne h]

/-! ## Following names -/

theorem enter_eq_ok_iff {name : Bytes} : v.enter loc name = .ok l ↔ v.get? loc = some .directory ∧
    (if name = Path.here then l = loc else if name = Path.above then l = loc.dropLast
      else name.length ≤ maxName ∧ l = loc ++ [name]) := by
  unfold enter
  rcases v.get? loc with _ | _ | text
  · simp
  · simp only [beq_iff_eq, true_and]
    split
    · simp [eq_comm]
    · split
      · simp [eq_comm]
      · split
        · rename_i hlong
          simp [Nat.not_le.mpr hlong]
        · rename_i hlong
          simp [Nat.not_lt.mp hlong, eq_comm]
  · simp

theorem enter_ordinary {name : Bytes} (hname : Path.Ordinary name) (h : v.enter loc name = .ok l) : l = loc ++ [name] := by
  have hl := (enter_eq_ok_iff.mp h).2
  rw [if_neg hname.ne_here, if_neg hname.ne_above] at hl
  exact hl.2

theorem follow_nil : v.follow loc [] = .ok l ↔ l = loc := by
  simp [follow, pure, Except.pure, eq_comm]

theorem follow_cons {name : Bytes} {rest : List Bytes} :
    v.follow loc (name :: rest) = .ok l ↔ ∃ next, v.enter loc name = .ok next ∧ v.follow next rest = .ok l := by
  rw [follow, List.foldlM_cons]
  cases v.enter loc name <;> simp [bind, Except.bind, follow]

theorem follow_append {xs ys : List Bytes} :
    v.follow loc (xs ++ ys) = .ok l ↔ ∃ next, v.follow loc xs = .ok next ∧ v.follow next ys = .ok l := by
  induction xs generalizing loc with
  | nil => simp [follow_nil]
  | cons name rest ih =>
    simp only [List.cons_append, follow_cons, ih]
    grind

theorem follow_concat {xs : List Bytes} {name : Bytes} :
    v.follow loc (xs ++ [name]) = .ok l ↔ ∃ next, v.follow loc xs = .ok next ∧ v.enter next name = .ok l := by
  simp [follow_append, follow_cons, follow_nil]

theorem eq_of_follow_here {wanted : Bool} (h : v.follow loc (if wanted then [Path.here] else []) = .ok l) : l = loc := by
  cases wanted with
  | false => exact follow_nil.mp h
  | true =>
    obtain ⟨next, henter, hnext⟩ := follow_cons.mp h
    rw [follow_nil.mp hnext]
    simpa using (enter_eq_ok_iff.mp henter).2

/-- The names that are left of a path so far lead where the path leads so far: a name that is cleaned away with the name of the
directory above has led into a directory, and out of it again. -/
theorem follow_cleanName {absolute : Bool} {start next : Location} {done : List Bytes} {name : Bytes}
    (hstart : absolute = true → start = []) (hnot : Path.here ∉ done) (hdone : v.follow start done.reverse = .ok loc)
    (henter : v.enter loc name = .ok next) :
    Path.here ∉ Path.cleanName absolute done name ∧
      v.follow start (Path.cleanName absolute done name).reverse = .ok next := by
  have hmoved := (enter_eq_ok_iff.mp henter).2
  have hpushed : v.follow start (name :: done).reverse = .ok next := by
    rw [List.reverse_cons]
    exact follow_concat.mpr ⟨loc, hdone, henter⟩
  unfold Path.cleanName
  by_cases hhere : name = Path.here
  · rw [if_pos (by simp [hhere])]
    rw [if_pos hhere] at hmoved
    exact ⟨hnot, hmoved ▸ hdone⟩
  · have hkept : Path.here ∉ name :: done := by simp [hnot, Ne.symm hhere]
    rw [if_neg (by simpa using hhere)]
    rw [if_neg hhere] at hmoved
    by_cases habove : name = Path.above
    · rw [if_pos (by simp [habove])]
      rw [if_pos habove] at hmoved
      cases done with
      | nil =>
        cases absolute with
        | true =>
          have hloc := (follow_nil.mp hdone).trans (hstart rfl)
          exact ⟨by simp, follow_nil.mpr (by rw [hmoved, hloc, hstart rfl]; rfl)⟩
        | false => exact ⟨hkept, hpushed⟩
      | cons last rest =>
        by_cases hlast : last = Path.above
        · simp only [hlast, beq_self_eq_true, if_true] at hkept hpushed ⊢
          exact ⟨hkept, hpushed⟩
        · have hrest : Path.here ≠ last ∧ Path.here ∉ rest := by simpa using hnot
          rw [List.reverse_cons] at hdone
          obtain ⟨before, hbefore, hentered⟩ := follow_concat.mp hdone
          have hloc := (enter_eq_ok_iff.mp hentered).2
          rw [if_neg (Ne.symm hrest.1), if_neg hlast] at hloc
          rw [hloc.2, List.dropLast_concat] at hmoved
          simp only [beq_iff_eq, hlast, if_false]
          exact ⟨hrest.2, hmoved ▸ hbefore⟩
    · rw [if_neg (by simpa using habove)]
      exact ⟨hkept, hpushed⟩

theorem follow_cleanNames {absolute : Bool} {start : Location} (hstart : absolute = true → start = []) {parts : List Bytes}
    (h : v.follow start parts = .ok loc) : v.follow start (Path.cleanNames absolute parts) = .ok loc := by
  have hfold : ∀ (done : List Bytes) (here : Location), Path.here ∉ done → v.follow start done.reverse = .ok here →
      v.follow here parts = .ok loc → v.follow start (parts.foldl (Path.cleanName absolute) done).reverse = .ok loc := by
    clear h
    induction parts with
    | nil =>
      intro done here _ hdone hparts
      rwa [follow_nil.mp hparts]
    | cons name rest ih =>
      intro done here hnot hdone hparts
      obtain ⟨next, henter, hnext⟩ := follow_cons.mp hparts
      obtain ⟨hkept, hcleaned⟩ := follow_cleanName hstart hnot hdone henter
      exact ih _ next hkept hcleaned hnext
  exact hfold [] start (by simp) (follow_nil.mpr rfl) h

/-! ## Paths -/

theorem locate_eq_ok_iff {path : Bytes} : v.locate path = .ok loc ↔ checkPath path = .ok () ∧
    v.follow (v.startOf path) (Path.names path ++ if endsOpen path then [Path.here] else []) = .ok loc := by
  rw [locate]
  cases checkPath path <;> simp [bind, Except.bind]

theorem find_eq_ok_iff {path : Bytes} {n : Node} :
    v.find path = .ok n ↔ ∃ loc, v.locate path = .ok loc ∧ v.get? loc = some n := by
  rw [find]
  cases v.locate path with
  | error cause => simp [bind, Except.bind]
  | ok loc => cases hget : v.get? loc <;> simp [bind, Except.bind, hget]

theorem ne_nil_of_locate {path : Bytes} (h : v.locate path = .ok loc) : path ≠ [] := by
  rintro rfl
  exact absurd (locate_eq_ok_iff.mp h).1 (by simp [checkPath])

theorem eq_concat_of_locate {path name : Bytes} (h : v.locate path = .ok loc) (hends : Path.EndsWith path name)
    (hname : Path.Ordinary name) : ∃ parent, loc = parent ++ [name] := by
  obtain ⟨parts, hparts⟩ := hends.names hname
  obtain ⟨last, hfollow, hopen⟩ := follow_append.mp (locate_eq_ok_iff.mp h).2
  rw [hparts] at hfollow
  obtain ⟨parent, -, henter⟩ := follow_concat.mp hfollow
  exact ⟨parent, (eq_of_follow_here hopen).trans (enter_ordinary hname henter)⟩

theorem eq_concat_of_locate_join {directory name : Bytes} (hdirectory : v.locate directory = .ok loc)
    (hname : Path.Ordinary name) (h : v.locate (Path.join directory name) = .ok l) : l = loc ++ [name] := by
  obtain ⟨hnames, habsolute⟩ := (Path.join_ordinary directory hname.names hname).1 (ne_nil_of_locate hdirectory)
  have hstart : v.startOf (Path.join directory name) = v.startOf directory := by rw [startOf, startOf, habsolute]
  obtain ⟨last, hfollow, hopen⟩ := follow_append.mp (locate_eq_ok_iff.mp h).2
  rw [hnames, hstart] at hfollow
  obtain ⟨parent, hparent, henter⟩ := follow_concat.mp hfollow
  -- the cleaned names of the directory lead to it
  obtain ⟨reached, hreached, hopen'⟩ := follow_append.mp (locate_eq_ok_iff.mp hdirectory).2
  have hcleaned := follow_cleanNames (fun hroot => by rw [startOf, if_pos hroot]) hreached
  obtain rfl : reached = parent := Except.ok.inj (hcleaned.symm.trans hparent)
  rw [eq_of_follow_here hopen, eq_of_follow_here hopen']
  exact enter_ordinary hname henter

theorem locateNew_eq_ok {path : Bytes} (h : v.locateNew path = .ok loc) :
    checkPath path = .ok () ∧ endsOpen path = false ∧ ∃ parts name parent, Path.names path = parts ++ [name] ∧
      v.follow (v.startOf path) parts = .ok parent ∧ v.get? parent = some .directory ∧ name ≠ Path.here ∧ name ≠ Path.above ∧
      name.length ≤ maxName ∧ loc = parent ++ [name] ∧ v.get? loc ≠ some .directory := by
  simp only [locateNew, bind, Except.bind] at h
  cases hcheck : checkPath path with
  | error cause => simp [hcheck] at h
  | ok _ =>
    cases hparent : v.follow (v.startOf path) (Path.names path).dropLast with
    | error cause => simp [hcheck, hparent] at h
    | ok parent =>
      simp only [hcheck, hparent] at h
      split at h
      · exact absurd h (by simp)
      · exact absurd h (by simp)
      · exact absurd h (by simp)
      · rename_i name hdirectory hname
        obtain ⟨parts, hparts⟩ := List.getLast?_eq_some_iff.mp hname
        rw [hparts, List.dropLast_concat] at hparent
        by_cases hplain : (endsOpen path || name == Path.here || name == Path.above) = true
        · simp [hplain] at h
        · by_cases hlong : maxName < name.length
          · simp [hplain, hlong] at h
          · rw [if_neg hplain, if_neg hlong] at h
            simp only [Bool.or_eq_true, beq_iff_eq, not_or, Bool.not_eq_true] at hplain
            obtain ⟨⟨hopen, hhere⟩, habove⟩ := hplain
            refine ⟨rfl, hopen, parts, name, parent, hparts, hparent, hdirectory, hhere, habove, Nat.not_lt.mp hlong, ?_⟩
            cases hget : v.get? (parent ++ [name]) with
            | none => simp_all
            | some n =>
              cases n with
              | directory => simp_all
              | file text condition => cases condition <;> simp_all

theorem locate_of_locateNew {path : Bytes} (h : v.locateNew path = .ok loc) :
    v.locate path = .ok loc ∧ v.get? loc ≠ some .directory := by
  obtain ⟨hcheck, hopen, parts, name, parent, hparts, hparent, hdirectory, hhere, habove, hlong, rfl, hfree⟩ := locateNew_eq_ok h
  refine ⟨locate_eq_ok_iff.mpr ⟨hcheck, ?_⟩, hfree⟩
  have hentered : v.enter parent name = .ok (parent ++ [name]) :=
    enter_eq_ok_iff.mpr ⟨hdirectory, by simp [hhere, habove, hlong]⟩
  rw [hopen, if_neg (by simp), List.append_nil, hparts]
  exact follow_concat.mpr ⟨parent, hparent, hentered⟩

theorem endsOpen_of_file {path text : Bytes} (h : v.locate path = .ok loc) (hget : v.get? loc = some (.file text)) :
    endsOpen path = false := by
  obtain ⟨-, hfollow⟩ := locate_eq_ok_iff.mp h
  cases hopen : endsOpen path with
  | false => rfl
  | true =>
    rw [hopen, if_pos rfl] at hfollow
    obtain ⟨next, -, henter⟩ := follow_concat.mp hfollow
    obtain ⟨hdirectory, hsame⟩ := enter_eq_ok_iff.mp henter
    rw [if_pos rfl] at hsame
    simp [← hsame, hget] at hdirectory

theorem locate_ne_of_ending {path text tail : Bytes} (htail : tail ≠ []) (hslash : Path.separator ∉ tail)
    (hending : Path.ending path ≠ tail) (hfile : v.find path = .ok (.file text))
    (hnew : v.locateNew (Path.dropEnding path ++ tail) = .ok loc) : v.locate path ≠ .ok loc := by
  intro hlocate
  have hget : v.get? loc = some (.file text) := by
    obtain ⟨l, hl, hget⟩ := find_eq_ok_iff.mp hfile
    rwa [← Except.ok.inj (hlocate.symm.trans hl)] at hget
  obtain ⟨front, stem, hpath, hdrop, hname, hfront⟩ := Path.exists_stem path
  obtain ⟨hstem, -⟩ : Path.separator ∉ stem ∧ Path.separator ∉ Path.ending path := by simpa using hname
  have hname' : Path.separator ∉ stem ++ tail := by simp [hstem, hslash]
  obtain ⟨-, hfollow⟩ := locate_eq_ok_iff.mp hlocate
  have hclosed := endsOpen_of_file hlocate hget
  have hne : stem ++ Path.ending path ≠ [] := by
    intro hnil
    rw [hnil, List.append_nil] at hpath
    rcases hfront with hempty | hlast
    · exact ne_nil_of_locate hlocate (hpath.trans hempty)
    · simp [endsOpen, hpath, hlast] at hclosed
  obtain ⟨parts, hparts⟩ := Path.names_append_name hfront
  have hnames : Path.names path = parts ++ [stem ++ Path.ending path] := by
    conv_lhs => rw [hpath]
    exact hparts _ hne hname
  rw [hclosed, if_neg (by simp), List.append_nil, hnames] at hfollow
  obtain ⟨parent, hparent, henter⟩ := follow_concat.mp hfollow
  obtain ⟨hdirectory, hmoved⟩ := enter_eq_ok_iff.mp henter
  -- the new file is in the directory where the last name of the path is
  obtain ⟨-, -, parts', name', parent', hnames', hparent', -, -, -, -, hloc, -⟩ := locateNew_eq_ok hnew
  rw [hdrop, List.append_assoc, hparts _ (by simp [htail]) hname'] at hnames'
  obtain ⟨rfl, rfl⟩ := List.append_singleton_inj.mp hnames'
  have hstart : v.startOf (Path.dropEnding path ++ tail) = v.startOf path := by
    rw [startOf, startOf, hdrop, List.append_assoc]
    conv_rhs => rw [hpath]
    rw [Path.isAbsolute_append_name front hname' hname]
  rw [hstart] at hparent'
  obtain rfl := Except.ok.inj (hparent.symm.trans hparent')
  subst hloc
  split at hmoved
  · simp [hmoved, hdirectory] at hget
  · split at hmoved
    · have hlength := congrArg List.length hmoved
      simp at hlength
      omega
    · exact hending (List.append_cancel_left (List.append_singleton_inj.mp hmoved.2).2).symm

/-! ## Directories -/

/-- The volumes have the same directories. -/
structure SameDirectories (v v' : Volume) : Prop where
  workingDirectory : v'.workingDirectory = v.workingDirectory
  directory : ∀ loc, v'.get? loc = some .directory ↔ v.get? loc = some .directory

theorem sameDirectories_put (hne : loc ≠ []) (hfree : v.get? loc ≠ some .directory) (text : Bytes) :
    SameDirectories v (v.put loc (.file text)) where
  workingDirectory := rfl
  directory l := by
    by_cases hl : l = loc
    · subst hl
      simp [get?_put_self v hne, hfree]
    · rw [get?_put_of_ne v hl]

theorem SameDirectories.follow (h : SameDirectories v v') {names : List Bytes} :
    v'.follow loc names = .ok l ↔ v.follow loc names = .ok l := by
  induction names generalizing loc with
  | nil => simp [follow_nil]
  | cons name rest ih => simp only [follow_cons, enter_eq_ok_iff, h.directory, ih]

theorem SameDirectories.locate (h : SameDirectories v v') {path : Bytes} :
    v'.locate path = .ok loc ↔ v.locate path = .ok loc := by
  have hstart : v'.startOf path = v.startOf path := by rw [startOf, startOf, h.workingDirectory]
  rw [locate_eq_ok_iff, locate_eq_ok_iff, hstart, h.follow]

/-! ## Changes at one location -/

/-- The volumes differ in nothing but what is at one location. -/
structure OnlyAt (loc : Location) (v v' : Volume) : Prop where
  workingDirectory : v'.workingDirectory = v.workingDirectory
  medium : v'.medium = v.medium
  other : ∀ l, l ≠ loc → v'.get? l = v.get? l

namespace OnlyAt

theorem refl (loc : Location) (v : Volume) : OnlyAt loc v v := ⟨rfl, rfl, fun _ _ => rfl⟩

theorem put (h : OnlyAt loc v v') (n : Node) : OnlyAt loc v (v'.put loc n) :=
  ⟨h.workingDirectory, h.medium, fun l hl => (get?_put_of_ne v' hl n).trans (h.other l hl)⟩

theorem erase (h : OnlyAt loc v v') : OnlyAt loc v (v'.erase loc) :=
  ⟨h.workingDirectory, h.medium, fun l hl => (get?_erase_of_ne v' hl).trans (h.other l hl)⟩

theorem sameDirectories (h : OnlyAt loc v v') (hfree : v.get? loc ≠ some .directory) (hfree' : v'.get? loc ≠ some .directory) :
    SameDirectories v v' where
  workingDirectory := h.workingDirectory
  directory l := by
    by_cases hl : l = loc
    · subst hl
      exact iff_of_false hfree' hfree
    · rw [h.other l hl]

end OnlyAt

theorem ne_nil_of_locateNew {path : Bytes} (h : v.locateNew path = .ok loc) : loc ≠ [] := by
  obtain ⟨-, -, parts, name, parent, -, -, -, -, -, -, rfl, -⟩ := locateNew_eq_ok h
  simp

theorem find_of_locate {path : Bytes} (h : v.locate path = .ok loc) :
    v.find path = ((v.get? loc).map Except.ok).getD (.error .notFound) := by
  rw [find, h]
  cases hget : v.get? loc <;> simp [bind, Except.bind, hget]

/-! ## Reading -/

theorem openSource_file {path text : Bytes} (h : v.find path = .ok (.file text)) :
    v.openSource path = .ok (Source.ofBytes text) := by
  rw [openSource, h]

theorem find_of_openSource {path : Bytes} {source : Source} (h : v.openSource path = .ok source) (hfault : source.fault = none) :
    ∃ text, v.find path = .ok (.file text) ∧ source = Source.ofBytes text := by
  unfold openSource at h
  split at h
  · simp at h
  · obtain rfl := Except.ok.inj h
    simp [Source.directory] at hfault
  · rename_i text hfind
    exact ⟨text, hfind, (Except.ok.inj h).symm⟩
  · simp at h
  · obtain rfl := Except.ok.inj h
    simp [Source.broken] at hfault

end HackPlatform.Volume
