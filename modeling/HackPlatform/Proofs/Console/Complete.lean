import HackPlatform.Proofs.Console.Assemble
import HackPlatform.Proofs.Stack.Reading

/-!
# Output files are complete or absent

A tool that makes a file leaves all of it or none of it, wherever it fails (`CompleteOrAbsent`): it may fail to open or to read one of its
files, to write, to flush or to close. What all of it is, is said without a writer: the code of the commands of the files, one after
the other (`IsTranslation`), or the lines of the image of a program. Only the location of the file changes while it is written
(`onlyAt_writeProgram`), and that is not the location of a file that is read, unless the assembler is given a file with the name of an
image and no other name for the output (`outputs_complete_or_absent`).
-/

namespace HackPlatform.Console

open Code (Writer Wrote commandOps)
open Volume (Saved Place OnlyAt SameDirectories)

/-! ## What is left of a file that is made -/

/-- The volume `v'` is left by a tool that makes a file. If the file could not be made, everything is as it was. Otherwise the whole file
is there if the tool succeeds, and none of it if it fails, and nothing else has changed. -/
structure CompleteOrAbsent (v v' : Volume) (output : Bytes) (whole : Bytes → Prop) (failure : Option Failure) : Prop where
  complete : failure = none → ∃ text, whole text ∧ v'.find output = .ok (.file text)
  absent : failure ≠ none → ∀ loc, v.locateNew output = .ok loc → v'.find output = .error .notFound
  notMade : ∀ cause, v.locateNew output = .error cause → failure ≠ none ∧ v' = v
  directories : SameDirectories v v'
  other : ∀ l, v.locateNew output ≠ .ok l → v'.get? l = v.get? l

namespace CompleteOrAbsent

variable {v v' : Volume} {output : Bytes} {whole : Bytes → Prop} {loc : Location}

theorem of_notMade {cause : AccessCause} (h : v.locateNew output = .error cause) (e : Failure) :
    CompleteOrAbsent v v output whole (some e) where
  complete hnone := by simp at hnone
  absent _ loc hloc := by simp [h] at hloc
  notMade _ _ := ⟨by simp, rfl⟩
  directories := ⟨rfl, fun _ => Iff.rfl⟩
  other _ _ := rfl

theorem of_put (hnew : v.locateNew output = .ok loc) (h : OnlyAt loc v v') {text : Bytes} (hwhole : whole text) :
    CompleteOrAbsent v (v'.put loc (.file text)) output whole none := by
  obtain ⟨hlocate, hfree⟩ := Volume.locate_of_locateNew hnew
  have hget := Volume.get?_put_self v' (Volume.ne_nil_of_locateNew hnew) (.file text)
  have hsame := (h.put (.file text)).sameDirectories hfree (by simp [hget])
  refine ⟨fun _ => ⟨text, hwhole, ?_⟩, by simp, by simp [hnew], hsame, fun l hl => (h.put _).other l ?_⟩
  · exact Volume.find_eq_ok_iff.mpr ⟨loc, hsame.locate.mpr hlocate, hget⟩
  · rintro rfl
    exact hl hnew

theorem of_erase (hnew : v.locateNew output = .ok loc) (h : OnlyAt loc v v') (e : Failure) :
    CompleteOrAbsent v (v'.erase loc) output whole (some e) := by
  obtain ⟨hlocate, hfree⟩ := Volume.locate_of_locateNew hnew
  have hget := Volume.get?_erase_self v' (Volume.ne_nil_of_locateNew hnew)
  have hsame := h.erase.sameDirectories hfree (by simp [hget])
  refine ⟨by simp, fun _ _ _ => ?_, by simp [hnew], hsame, fun l hl => h.erase.other l ?_⟩
  · rw [Volume.find_of_locate (hsame.locate.mpr hlocate), hget]
    rfl
  · rintro rfl
    exact hl hnew

theorem find_of_ne {failure : Option Failure} (h : CompleteOrAbsent v v' output whole failure) {path : Bytes}
    (hne : ∀ loc, v.locateNew output = .ok loc → v.locate path ≠ .ok loc) (n : Node) : v'.find path = .ok n ↔ v.find path = .ok n := by
  simp only [Volume.find_eq_ok_iff, h.directories.locate]
  refine exists_congr fun l => and_congr_right fun hlocate => ?_
  rw [h.other l fun hnew => hne l hnew hlocate]

end CompleteOrAbsent

/-! ## Translations -/

/-- The files of stack code hold the program. -/
inductive Reads (v : Volume) : List Bytes → Stack.Program → Prop
  | nil : Reads v [] []
  | cons {path text : Bytes} {rest : List Bytes} {commands : List (Located Stack.Command)} {program : Stack.Program}
      (hfind : v.find path = .ok (.file text)) (hparse : Stack.parse path (Source.ofBytes text) = .ok commands)
      (hrest : Reads v rest program) :
      Reads v (path :: rest) (commands.map (fun c => (Code.unitName (Path.base path), c.item)) ++ program)

/-- The text is the assembly of files of stack code: the code of their commands, behind the start-up code if that is wanted. -/
def IsTranslation (v : Volume) (bootstrap : Bool) (files : List Bytes) (text : Bytes) : Prop :=
  ∃ program, Reads v files program ∧ text = (Code.code {} (Code.operations bootstrap program)).text

section Writing

variable {v : Volume} {loc : Location}

theorem onlyAt_writeFiles (verbose : Bool) (files : List Bytes) {s : Session} (h : OnlyAt loc v s.volume) (w : Writer) :
    OnlyAt loc v (writeFiles verbose (some loc) s w files).1.volume := by
  induction files generalizing s w with
  | nil => exact h
  | cons path rest ih =>
    have hnoted : OnlyAt loc v (if verbose then s.note (ascii "translating " ++ path) else s).volume := by
      rw [(s.logged_note verbose _).volume]
      exact h
    rw [writeFiles]
    split
    · exact hnoted
    · split
      · exact hnoted.put _
      · exact ih (hnoted.put _) _

theorem onlyAt_writeProgram (verbose bootstrap : Bool) (files : List Bytes) {s : Session} (h : OnlyAt loc v s.volume) (w : Writer) :
    OnlyAt loc v (writeProgram verbose (some loc) bootstrap s w files).1.volume := by
  unfold writeProgram
  split
  · exact h.put _
  · exact onlyAt_writeFiles verbose files (h.put _) _

theorem onlyAt_writeProgram_new {verbose bootstrap : Bool} {files : List Bytes} {s s' : Session} {w w' : Writer}
    {failure : Option Failure}
    (h : writeProgram verbose (some loc) bootstrap { s with volume := s.volume.put loc (.file []) } w files = (s', w', failure)) :
    OnlyAt loc s.volume s'.volume := by
  have honly := onlyAt_writeProgram verbose bootstrap files (s := { s with volume := s.volume.put loc (.file []) })
    ((OnlyAt.refl loc s.volume).put (.file [])) w
  rwa [h] at honly

theorem find_of_parse {path : Bytes} {source : Source} {commands : List (Located Stack.Command)}
    (hopen : v.openSource path = .ok source) (hparse : Stack.parse path source = .ok commands) :
    ∃ text, v.find path = .ok (.file text) ∧ source = Source.ofBytes text := by
  obtain ⟨hfault, -⟩ := (Stack.parse_eq_ok_iff _ _ _).mp hparse
  exact Volume.find_of_openSource hopen hfault

variable {parent : Location} {name : Bytes}

/-- Files that are written without a failure are written as the program that they hold at the start. -/
theorem reads_of_writeFiles (hplace : Place v parent name) {verbose : Bool} {files : List Bytes}
    (hfiles : ∀ file ∈ files, Code.fileEnding <:+ file) {s s' : Session} {w w' : Writer} (hs : Saved v s.volume)
    (h : writeFiles verbose (some (parent ++ [name])) s w files = (s', w', none)) :
    ∃ program, Reads v files program ∧ Wrote w w' (commandOps program) := by
  induction files generalizing s w with
  | nil =>
    obtain ⟨-, hrest⟩ := Prod.mk.inj h
    obtain ⟨rfl, -⟩ := Prod.mk.inj hrest
    exact ⟨[], .nil, .nil w⟩
  | cons path rest ih =>
    obtain ⟨source, w₁, hopen, hfirst, hrest⟩ := writeFiles_cons_eq_none.mp h
    obtain ⟨commands, count, hparse, hall⟩ := Code.writeFile_eq_none_iff.mp hfirst
    rw [List.forall_mem_cons] at hfiles
    have hnoted := s.logged_note verbose (ascii "translating " ++ path)
    obtain ⟨program, hreads, hwrote⟩ := ih hfiles.2 (saved_update hplace (hnoted.volume ▸ hs) w₁) hrest
    obtain ⟨text, hfind, rfl⟩ := find_of_parse (openSource_saved hs .refl hfiles.1 hopen) hparse
    exact ⟨_, .cons hfind hparse hreads, .file hall hwrote⟩

theorem isTranslation_of_writeProgram (hplace : Place v parent name) {verbose bootstrap : Bool} {files : List Bytes}
    (hfiles : ∀ file ∈ files, Code.fileEnding <:+ file) {s s' : Session} {sink : Stream.Sink} (hsink : sink.contents = [])
    {w w' : Writer} (hs : Saved v s.volume)
    (h : writeProgram verbose (some (parent ++ [name])) bootstrap s (Writer.new sink) files = (s', w, none))
    (hclose : w.close = (w', none)) : IsTranslation v bootstrap files w'.sink.contents := by
  unfold writeProgram at h
  rcases hstart : (Writer.new sink).start bootstrap with ⟨w₁, _ | e⟩
  · simp only [hstart] at h
    obtain ⟨hfirst, hscope⟩ := Code.wrote_start hstart
    obtain ⟨program, hreads, hlowerable, htext⟩ := reads_of_writeFiles hplace hfiles (saved_update hplace hs w₁) h
    rw [hscope] at hlowerable htext
    obtain ⟨-, hemitted⟩ := hfirst.trans hlowerable htext
    refine ⟨program, hreads, ?_⟩
    rw [Code.contents_close hclose, hemitted, Writer.emitted_new, hsink]
    rfl
  · simp [hstart] at h

end Writing

theorem translateToFile_eq_some {verbose bootstrap : Bool} {s s' : Session} {output : Bytes} {files : List Bytes} {e : Failure}
    (h : translateToFile verbose bootstrap s output files = (s', some e)) :
    (∃ cause, s.volume.locateNew output = .error cause ∧ s' = s) ∨
      ∃ (loc : Location) (s₁ : Session), s.volume.locateNew output = .ok loc ∧ OnlyAt loc s.volume s₁.volume ∧
        s' = { s₁ with volume := s₁.volume.erase loc } := by
  unfold translateToFile Volume.create at h
  cases hnew : s.volume.locateNew output with
  | error cause =>
    simp only [hnew] at h
    exact .inl ⟨cause, rfl, (Prod.mk.inj h).1.symm⟩
  | ok loc =>
    simp only [hnew] at h
    rcases hwrite : writeProgram verbose (some loc) bootstrap { s with volume := s.volume.put loc (.file []) }
      (Writer.new (s.volume.put loc (.file [])).medium) files with ⟨s₁, w₁, failure⟩
    rcases hclose : w₁.close with ⟨w', closing⟩
    simp only [hwrite, hclose] at h
    refine .inr ⟨loc, s₁, rfl, onlyAt_writeProgram_new hwrite, ?_⟩
    rcases failure with _ | e
    · rcases closing with _ | e
      · simp at h
      · exact (Prod.mk.inj h).1.symm
    · exact (Prod.mk.inj h).1.symm

theorem completeOrAbsent_translateToFile {verbose bootstrap : Bool} {s s' : Session} {stem : Bytes} {files : List Bytes}
    {failure : Option Failure} (hmedium : s.volume.medium.contents = []) (hfiles : ∀ file ∈ files, Code.fileEnding <:+ file)
    (h : translateToFile verbose bootstrap s (stem ++ assemblyEnding) files = (s', failure)) :
    CompleteOrAbsent s.volume s'.volume (stem ++ assemblyEnding) (IsTranslation s.volume bootstrap files) failure := by
  cases failure with
  | none =>
    obtain ⟨volume, loc, s₁, w₁, w', hcreate, hwrite, hclose, rfl⟩ := translateToFile_eq_none h
    obtain ⟨hnew, rfl⟩ := create_eq_ok hcreate
    obtain ⟨parent, rfl, hplace⟩ := Volume.place_of_locateNew (by decide) (by decide) (by decide) hnew
    have htext := isTranslation_of_writeProgram hplace hfiles hmedium (.put .refl hplace []) hwrite hclose
    exact .of_put hnew (onlyAt_writeProgram_new hwrite) htext
  | some e =>
    rcases translateToFile_eq_some h with ⟨cause, hnew, rfl⟩ | ⟨loc, s₁, hnew, honly, rfl⟩
    · exact .of_notMade hnew e
    · exact .of_erase hnew honly e

theorem locate_ne_of_fileEnding {v : Volume} {stem file : Bytes} {loc : Location} (hfile : Code.fileEnding <:+ file)
    (hnew : v.locateNew (stem ++ assemblyEnding) = .ok loc) : v.locate file ≠ .ok loc := by
  have hending : Path.IsEnding Code.fileEnding := by decide
  obtain ⟨parent, rfl, hplace⟩ := Volume.place_of_locateNew (by decide) (by decide) (by decide) hnew
  obtain ⟨front, rfl⟩ := hfile
  intro hlocate
  obtain ⟨directory, heq⟩ := Volume.eq_concat_of_locate hlocate (Path.endsWith_append front _) (hending.ordinary_append front)
  exact hplace.other ⟨_, (List.append_singleton_inj.mp heq).2.symm⟩

/-! ## Images -/

/-- Where the image of a program goes. -/
def imagePath (o : Options) (path : Bytes) : Bytes := if o.output.isEmpty then Path.dropEnding path ++ imageEnding else o.output

theorem completeOrAbsent_saveImage {s s' : Session} {output : Bytes} {rom : Array Instruction} {failure : Option Failure}
    (hmedium : s.volume.medium.contents = []) (h : saveImage s output rom = (s', failure)) :
    CompleteOrAbsent s.volume s'.volume output (· = (Image.lines rom).flatten) failure := by
  unfold saveImage Volume.create at h
  cases hnew : s.volume.locateNew output with
  | error cause =>
    simp only [hnew] at h
    obtain ⟨rfl, rfl⟩ := Prod.mk.inj h
    exact .of_notMade hnew _
  | ok loc =>
    have hmade := (OnlyAt.refl loc s.volume).put (.file [])
    have hmedium' : (s.volume.put loc (.file [])).medium = s.volume.medium := rfl
    simp only [hnew, hmedium'] at h
    rcases hwrite : writeImage s.volume.medium rom with ⟨sink, _ | e⟩
    · simp only [hwrite] at h
      obtain ⟨rfl, rfl⟩ := Prod.mk.inj h
      refine .of_put hnew hmade ?_
      rw [contents_writeImage hwrite, hmedium, List.nil_append]
    · simp only [hwrite] at h
      obtain ⟨rfl, rfl⟩ := Prod.mk.inj h
      exact .of_erase hnew hmade _

theorem assemble_eq_saveImage {o : Options} {path : Bytes} {s : Session} {rom : Array Instruction} (hlisting : o.listing = false)
    (hrom : assembleFile s.volume path = .ok rom) :
    ∃ text, assemble o path s = saveImage (if o.verbose then s.note text else s) (imagePath o path) rom := by
  refine ⟨ascii "writing " ++ Numeral.ofNat rom.size ++ ascii " instructions to " ++ imagePath o path, ?_⟩
  rw [assemble, hlisting, if_neg (by simp), hrom]
  rfl

theorem find_of_assembleFile {v : Volume} {path : Bytes} {rom : Array Instruction} (h : assembleFile v path = .ok rom) :
    ∃ text, v.find path = .ok (.file text) := by
  unfold assembleFile at h
  cases hopen : v.openSource path with
  | error e => simp [hopen] at h
  | ok source =>
    cases hassemble : Assembly.assemble path source with
    | error e => simp [hopen, hassemble, Except.mapError] at h
    | ok rom =>
      obtain ⟨hfault, -⟩ := (Assembly.assemble_eq_ok_iff _ _ _).mp hassemble
      obtain ⟨text, hfind, -⟩ := Volume.find_of_openSource hopen hfault
      exact ⟨text, hfind⟩

theorem imagePath_eq_or_locate_ne {v : Volume} {o : Options} {path text : Bytes} (houtput : o.output = [])
    (hfile : v.find path = .ok (.file text)) :
    if Path.ending path = imageEnding then imagePath o path = path
      else ∀ loc, v.locateNew (imagePath o path) = .ok loc → v.locate path ≠ .ok loc := by
  have hpath : imagePath o path = Path.dropEnding path ++ imageEnding := by simp [imagePath, houtput]
  rw [hpath]
  split
  · rename_i hending
    obtain ⟨front, stem, hwhole, hdrop, -⟩ := Path.exists_stem path
    rw [hdrop, List.append_assoc]
    rw [hending] at hwhole
    exact hwhole.symm
  · rename_i hending
    exact fun loc => Volume.locate_ne_of_ending (by decide) (by decide) hending hfile

/-! ## Both tools -/

/-- The output of the translator, under the name that it chooses, and that of the assembler, under any name, is complete or absent. The
files that are read stay as they are, if the assembler chooses the name of its output and is given no file with the name of an image. -/
theorem outputs_complete_or_absent {s : Session} (hmedium : s.volume.medium.contents = []) (o : Options) (path : Bytes) :
    (∀ settings s' failure, o.output = [] → translate settings o path s = (s', failure) →
        (∀ e, Sources.find s.volume path = .error e → failure = some e ∧ s'.volume = s.volume) ∧
        ∀ sources, Sources.find s.volume path = .ok sources →
          CompleteOrAbsent s.volume s'.volume sources.output
            (IsTranslation s.volume (sources.isDirectory && settings.bootstrap && !o.noBootstrap) sources.files) failure ∧
          ∀ file ∈ sources.files, ∀ n, s'.volume.find file = .ok n ↔ s.volume.find file = .ok n) ∧
      ∀ s' failure, o.listing = false → assemble o path s = (s', failure) →
        (∀ e, assembleFile s.volume path = .error e → failure = some e ∧ s'.volume = s.volume) ∧
        ∀ rom, assembleFile s.volume path = .ok rom →
          CompleteOrAbsent s.volume s'.volume (imagePath o path) (· = (Image.lines rom).flatten) failure ∧
          (o.output = [] → if Path.ending path = imageEnding then imagePath o path = path
            else ∀ n, s'.volume.find path = .ok n ↔ s.volume.find path = .ok n) := by
  constructor
  · intro settings s' failure houtput h
    unfold translate at h
    constructor
    · intro e hfind
      simp only [hfind] at h
      obtain ⟨rfl, rfl⟩ := Prod.mk.inj h
      exact ⟨rfl, rfl⟩
    · intro sources hfind
      simp only [hfind, houtput, List.isEmpty_nil, if_true] at h
      obtain ⟨hfiles, stem, hstem⟩ := Sources.find_endings hfind
      rw [hstem] at h ⊢
      have hleft := completeOrAbsent_translateToFile hmedium hfiles h
      exact ⟨hleft, fun file hfile => hleft.find_of_ne fun loc hnew => locate_ne_of_fileEnding (hfiles file hfile) hnew⟩
  · intro s' failure hlisting h
    constructor
    · intro e hrom
      rw [assemble, hlisting, if_neg (by simp), hrom] at h
      obtain ⟨rfl, rfl⟩ := Prod.mk.inj h
      exact ⟨rfl, rfl⟩
    · intro rom hrom
      obtain ⟨text, heq⟩ := assemble_eq_saveImage hlisting hrom
      rw [heq] at h
      have hlogged := s.logged_note o.verbose text
      have hleft := completeOrAbsent_saveImage (hlogged.volume ▸ hmedium) h
      rw [hlogged.volume] at hleft
      refine ⟨hleft, fun houtput => ?_⟩
      obtain ⟨text, hfile⟩ := find_of_assembleFile hrom
      have hplace := imagePath_eq_or_locate_ne houtput hfile
      split at hplace
      · rename_i hending
        rw [if_pos hending]
        exact hplace
      · rename_i hending
        rw [if_neg hending]
        exact hleft.find_of_ne hplace

theorem assembleFile_one {v : Volume} {path : Bytes} (h : v.find path = .ok (.file (ascii "@1\n"))) :
    assembleFile v path = .ok #[1] := by
  have hone : Assembly.assemble path (Source.ofBytes (ascii "@1\n")) = .ok #[1] := by
    refine (Assembly.assemble_eq_ok_iff path _ _).mpr ⟨by decide +kernel, [.load (.number 1)], ?_, by decide, by decide, rfl⟩
    unfold Assembly.ReadAs
    decide +kernel
  rw [assembleFile, Volume.openSource_file h]
  simp only [hone, Except.mapError]

/-- On a medium with room for twenty bytes, the translator fails when it closes its output. It fails in the middle of a file that can be
read in part, and at once with a file that cannot be opened. The assembler has room for its output. -/
theorem outputs_complete_or_absent_limited :
    let s : Session := { volume := { nodes := [([ascii "A.vm"], .file (ascii "add\n")), ([ascii "B.asm"], .file (ascii "@1\n")),
                                               ([ascii "C.vm"], .file (ascii "add\nsub\n") (.damaged 5)),
                                               ([ascii "D.vm"], .file (ascii "add\n") .locked)],
                                     medium := { limit := some 20, closable := true } } }
    let fails := fun (unit message : Bytes) => ∃ s' e, translate {} {} (unit ++ Code.fileEnding) s = (s', some e) ∧ e.message = message ∧
      s'.volume.find (unit ++ assemblyEnding) = .error .notFound ∧
        ∀ n, s'.volume.find (unit ++ Code.fileEnding) = .ok n ↔ s.volume.find (unit ++ Code.fileEnding) = .ok n
    s.volume.medium.contents = [] ∧ fails (ascii "A") (ascii "flush failed: sink full") ∧
      fails (ascii "C") (ascii "C.vm: read failed: read C.vm: input/output error") ∧
      fails (ascii "D") (ascii "open failed: open D.vm: permission denied") ∧
      ∃ s', assemble {} (ascii "B.asm") s = (s', none) ∧
        s'.volume.find (ascii "B.hack") = .ok (.file (ascii "0000000000000001\n")) ∧
        ∀ n, s'.volume.find (ascii "B.asm") = .ok n ↔ s.volume.find (ascii "B.asm") = .ok n := by
  intro s fails
  have hfails : ∀ unit message text condition loc, s.volume.find (unit ++ Code.fileEnding) = .ok (.file text condition) →
      s.volume.locateNew (unit ++ assemblyEnding) = .ok loc →
      (translate {} {} (unit ++ Code.fileEnding) s).2.map Failure.message = some message → fails unit message := by
    intro unit message text condition loc hfind hnew hmessage
    have hending : Path.IsEnding Code.fileEnding := by decide
    have hunit : Code.unitName (unit ++ Code.fileEnding) = unit := by simp [Code.unitName, Bytes.dropEnding]
    have hsources : Sources.find s.volume (unit ++ Code.fileEnding) = .ok ⟨[unit ++ Code.fileEnding], unit ++ assemblyEnding, false⟩ :=
      Sources.find_eq_ok_iff.mpr (.inl ⟨text, condition, hfind, hending.ending_append unit, by rw [hunit]⟩)
    rcases hrun : translate {} {} (unit ++ Code.fileEnding) s with ⟨s', _ | e⟩
    · simp [hrun] at hmessage
    · obtain ⟨hleft, hfiles⟩ := ((outputs_complete_or_absent rfl {} _).1 {} s' (some e) rfl hrun).2 _ hsources
      simp only [hrun, Option.map_some, Option.some.injEq] at hmessage
      exact ⟨s', e, hrun, hmessage, hleft.absent (by simp) _ hnew, hfiles _ (by simp)⟩
  refine ⟨rfl, ?_, ?_, ?_, ?_⟩
  · exact hfails _ _ (ascii "add\n") .sound [ascii "A.asm"] (by decide +kernel) (by decide +kernel) (by decide +kernel)
  · exact hfails _ _ (ascii "add\nsub\n") (.damaged 5) [ascii "C.asm"] (by decide +kernel) (by decide +kernel) (by decide +kernel)
  · exact hfails _ _ (ascii "add\n") .locked [ascii "D.asm"] (by decide +kernel) (by decide +kernel) (by decide +kernel)
  · have hfile : s.volume.find (ascii "B.asm") = .ok (.file (ascii "@1\n")) := by decide +kernel
    have hrom := assembleFile_one hfile
    have hdone : (saveImage s (imagePath {} (ascii "B.asm")) #[1]).2.isNone = true := by decide +kernel
    obtain ⟨text, heq⟩ := assemble_eq_saveImage (o := {}) rfl hrom
    rw [if_neg (by decide)] at heq
    rw [← heq] at hdone
    rcases hrun : assemble {} (ascii "B.asm") s with ⟨s', _ | e⟩
    · obtain ⟨hleft, hinput⟩ := ((outputs_complete_or_absent rfl {} (ascii "B.asm")).2 s' none rfl hrun).2 _ hrom
      obtain ⟨text, rfl, hfind⟩ := hleft.complete rfl
      exact ⟨s', rfl, hfind, hinput rfl⟩
    · simp [hrun] at hdone

/-- Given a file with the name of an image, the assembler puts the image in its place. -/
theorem assemble_replaces_input :
    let s : Session := { volume := { nodes := [([ascii "x.hack"], .file (ascii "@1\n"))] } }
    s.volume.find (ascii "x.hack") = .ok (.file (ascii "@1\n")) ∧ (assemble {} (ascii "x.hack") s).2.isNone = true ∧
      (assemble {} (ascii "x.hack") s).1.volume.find (ascii "x.hack") = .ok (.file (ascii "0000000000000001\n")) := by
  intro s
  have hfile : s.volume.find (ascii "x.hack") = .ok (.file (ascii "@1\n")) := by decide +kernel
  obtain ⟨text, heq⟩ := assemble_eq_saveImage (o := {}) rfl (assembleFile_one hfile)
  rw [heq, if_neg (by decide)]
  exact ⟨hfile, by decide +kernel, by decide +kernel⟩

end HackPlatform.Console
