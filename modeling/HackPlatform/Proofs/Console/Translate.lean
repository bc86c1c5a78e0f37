import HackPlatform.Console.Translate
import HackPlatform.Proofs.Code.Delivery
import HackPlatform.Proofs.Code.Layout
import HackPlatform.Proofs.Code.Refused
import HackPlatform.Proofs.Volume.Glob

/-!
# What the translator leaves

The translator writes the same assembly to a file as it gives in memory (`translateToFile_spec`): a writer on a sink without a limit does what
a writer on any sink has done without a failure (`Mirrors`), and the files of stack code can be read as before while the output grows
beside them.
-/

namespace HackPlatform.Code

theorem writeFile_eq_none_iff {w w' : Writer} {name unit : Bytes} {source : Source} :
    w.writeFile name unit source = (w', none) ↔ ∃ commands count, Stack.parse name source = .ok commands ∧
      (w.setFile unit).writeAll 0 commands = (w', count, none) := by
  unfold Writer.writeFile
  cases Stack.parse name source with
  | error e => simp
  | ok commands =>
    simp only [Except.ok.injEq, exists_and_left, exists_eq_left']
    rcases (w.setFile unit).writeAll 0 commands with ⟨w₁, count, _ | e⟩
    · simp
    · simp

/-- The second writer writes to memory. It has written what the first has, and it can go on whatever comes. -/
structure Mirrors (w r : Writer) : Prop where
  ready : r.Ready
  delivers : ∃ given, r.stream.Delivers {} given
  scope : r.scope = w.scope
  emitted : r.emitted = w.emitted

namespace Mirrors

variable {w w' r : Writer}

theorem apply (h : Mirrors w r) (op : Operation) (hop : op ≠ .close) (hanswer : (op.apply w).2 = none) :
    (op.apply r).2 = none ∧ Mirrors (op.apply w).1 (op.apply r).1 := by
  obtain ⟨block, hlower, hemitted⟩ := (op.stepped w).done hanswer
  rw [← h.scope] at hlower
  have hdone := op.apply_of_unlimited h.ready.isOpen h.ready.unlimited h.ready.intact hlower hop
  obtain ⟨block', hlower', hemitted'⟩ := (op.stepped r).done hdone
  obtain ⟨rfl, hscope⟩ := Prod.mk.inj (Except.ok.inj (hlower.symm.trans hlower'))
  obtain ⟨given, hgiven⟩ := h.delivers
  exact ⟨hdone, h.ready.apply hop, ⟨_, op.delivers_apply_of_open hgiven h.ready.isOpen hop⟩, hscope.symm,
    by rw [hemitted', hemitted, h.emitted]⟩

theorem writeAll (h : Mirrors w r) {count count' : Nat} {commands : List (Located Stack.Command)}
    (hw : w.writeAll count commands = (w', count', none)) :
    ∃ r', r.writeAll count commands = (r', count', none) ∧ Mirrors w' r' := by
  induction commands generalizing w r count with
  | nil =>
    obtain ⟨rfl, hcount⟩ := Prod.mk.inj hw
    exact ⟨r, Prod.ext rfl hcount, h⟩
  | cons c rest ih =>
    rw [Writer.writeAll] at hw
    cases hwrite : w.write c with
    | mk w₁ answer =>
      rw [hwrite] at hw
      cases answer with
      | some e => exact absurd hw (by simp)
      | none =>
        have hfirst : (Operation.located c).apply w = (w₁, none) := hwrite
        obtain ⟨hanswer, hnext⟩ := h.apply (.located c) (by simp) (congrArg Prod.snd hfirst)
        rw [hfirst] at hnext
        obtain ⟨r', hr', hmirrors⟩ := ih hnext hw
        refine ⟨r', ?_, hmirrors⟩
        rw [Writer.writeAll, show r.write c = ((Operation.apply r (.located c)).1, none) from Prod.ext rfl hanswer]
        exact hr'

theorem writeFile (h : Mirrors w r) {name unit : Bytes} {source : Source} (hw : w.writeFile name unit source = (w', none)) :
    ∃ r', r.writeFile name unit source = (r', none) ∧ Mirrors w' r' := by
  obtain ⟨commands, count, hparse, hall⟩ := writeFile_eq_none_iff.mp hw
  have hfile : Mirrors (w.setFile unit) (r.setFile unit) := (h.apply (.file unit) (by simp) rfl).2
  obtain ⟨r', hr', hmirrors⟩ := hfile.writeAll hall
  exact ⟨r', writeFile_eq_none_iff.mpr ⟨commands, count, hparse, hr'⟩, hmirrors⟩

theorem start (h : Mirrors w r) {wanted : Bool} (hw : w.start wanted = (w', none)) :
    ∃ r', r.start wanted = (r', none) ∧ Mirrors w' r' := by
  unfold Writer.start at hw ⊢
  cases wanted with
  | false =>
    obtain ⟨rfl, -⟩ := Prod.mk.inj hw
    exact ⟨r, rfl, h⟩
  | true =>
    obtain ⟨rfl, hanswer⟩ := Prod.mk.inj hw
    obtain ⟨hdone, hmirrors⟩ := h.apply .bootstrap (by simp) (Option.map_eq_none_iff.mp hanswer)
    exact ⟨_, Prod.ext rfl (Option.map_eq_none_iff.mpr hdone), hmirrors⟩

theorem close (h : Mirrors w r) (hw : w.close = (w', none)) :
    ∃ r', r.close = (r', none) ∧ r'.sink.contents = w'.sink.contents := by
  obtain ⟨given, hgiven⟩ := h.delivers
  have hflush : (Writer.flushStream r.stream).2 = none := by
    have hdone := Operation.flush.apply_of_unlimited h.ready.isOpen h.ready.unlimited h.ready.intact rfl (by simp)
    simpa [Operation.apply, Writer.flush, h.ready.isOpen] using hdone
  have hsink : (Writer.flushStream r.stream).1.outlet.sink.close.2 = none := by
    rw [(Writer.delivers_flushStream hgiven).outlet.close_sink]
    rfl
  have hclosed : r.close = (r.close.1, none) := Prod.ext rfl ((Writer.close_eq_none_iff h.ready.isOpen).mpr ⟨hflush, hsink⟩)
  exact ⟨_, hclosed, by rw [contents_close hclosed, contents_close hw, h.emitted]⟩

theorem new (sink : Stream.Sink) (h : sink.contents = []) : Mirrors (Writer.new sink) (Writer.new {}) where
  ready := .new rfl
  delivers := ⟨_, Writer.delivers_new {}⟩
  scope := rfl
  emitted := by rw [Writer.emitted_new, Writer.emitted_new, h]; rfl

end Mirrors

theorem emitted_prefix_of_writeFile {w w' : Writer} {name unit : Bytes} {source : Source}
    (h : w.writeFile name unit source = (w', none)) : w.emitted <+: w'.emitted := by
  obtain ⟨commands, count, -, hall⟩ := writeFile_eq_none_iff.mp h
  exact ⟨_, (wrote_writeAll hall).1.emitted.symm⟩

theorem resetStack_prefix_of_start {w w' : Writer} (h : w.start true = (w', none)) :
    w.emitted ++ Block.resetStack.text <+: w'.emitted := by
  have hcode : code w.scope [.bootstrap] =
      Block.resetStack ++ Block.call Writer.entryPoint (w.scope.returnLabel Writer.entryPoint) 0 := by
    rw [code_cons, Operation.block_of_lower (Operation.lower_bootstrap w.scope)]
    exact List.append_nil _
  refine ⟨(Block.call Writer.entryPoint (w.scope.returnLabel Writer.entryPoint) 0).text, ?_⟩
  rw [(wrote_start h).1.emitted, if_pos rfl, hcode, Block.text_append, List.append_assoc]

end HackPlatform.Code

namespace HackPlatform.Console

open Code (Writer Mirrors)
open Volume (Saved Place)

/-! ## Stack code -/

/-- A path stands for a file of stack code, or for what it matches as a directory. -/
theorem Sources.find_eq_ok_iff {v : Volume} {path : Bytes} {sources : Sources} :
    Sources.find v path = .ok sources ↔
      (∃ text condition, v.find path = .ok (.file text condition) ∧ Path.ending path = Code.fileEnding ∧
        sources = ⟨[path], Code.unitName path ++ assemblyEnding, false⟩) ∨
      ∃ files, v.find path = .ok .directory ∧ v.glob? (Path.join path (42 :: Code.fileEnding)) = some files ∧ files ≠ [] ∧
        sources = ⟨files.mergeSort, Path.join path (Path.base (v.absolute path) ++ assemblyEnding), true⟩ := by
  unfold Sources.find Volume.stat
  cases v.find path with
  | error cause => simp [Except.mapError]
  | ok node =>
    cases node with
    | file text condition =>
      simp only [Except.mapError]
      by_cases hending : Path.ending path = Code.fileEnding
      · simp [hending, eq_comm]
      · simp [hending]
    | directory =>
      simp only [Except.mapError]
      cases v.glob? (Path.join path (42 :: Code.fileEnding)) with
      | none => simp
      | some files => cases files <;> simp [eq_comm]

theorem Sources.find_endings {v : Volume} {path : Bytes} {sources : Sources} (h : Sources.find v path = .ok sources) :
    (∀ file ∈ sources.files, Code.fileEnding <:+ file) ∧ ∃ stem, sources.output = stem ++ assemblyEnding := by
  rcases find_eq_ok_iff.mp h with ⟨text, condition, -, hending, rfl⟩ | ⟨files, -, hglob, -, rfl⟩
  · obtain ⟨stem, hstem⟩ := Path.exists_of_ending (show Path.ending path ≠ [] by rw [hending]; decide)
    rw [hending] at hstem
    exact ⟨by simpa using ⟨stem, hstem.symm⟩, _, rfl⟩
  · refine ⟨fun file hfile => ?_, Path.exists_join_base (by decide) path _⟩
    exact Volume.suffix_of_mem_glob? hglob ((List.mergeSort_perm files _).subset hfile)

theorem Sources.find_saved {v v' : Volume} {path : Bytes} {sources : Sources} (hsaved : Saved v v')
    (h : Sources.find v path = .ok sources) : Sources.find v' path = .ok sources := by
  rw [find_eq_ok_iff]
  rcases find_eq_ok_iff.mp h with ⟨text, condition, hfind, hending, rfl⟩ | ⟨files, hfind, hglob, hfiles, rfl⟩
  · have hpath := (find_endings h).1 path (by simp)
    exact .inl ⟨text, condition, (hsaved.find hpath).mpr hfind, hending, rfl⟩
  · obtain ⟨loc, hlocate, hget⟩ := Volume.find_eq_ok_iff.mp hfind
    have hfind' := Volume.find_eq_ok_iff.mpr ⟨loc, hsaved.directories.locate.mpr hlocate, (hsaved.directories.directory loc).mpr hget⟩
    have habsolute : v'.absolute path = v.absolute path := by
      rw [Volume.absolute, Volume.absolute, hsaved.directories.workingDirectory]
    exact .inr ⟨files, hfind', hsaved.glob? hglob hfiles, hfiles, by rw [habsolute]⟩

/-! ## Writing -/

/-- The sessions differ in nothing but lines that were added to the log. -/
structure Session.Logged (s s' : Session) : Prop where
  volume : s'.volume = s.volume
  output : s'.output = s.output
  log : ∃ notes, s'.log = s.log ++ notes

theorem Session.Logged.refl (s : Session) : s.Logged s := ⟨rfl, rfl, [], by simp⟩

theorem Session.Logged.trans {s s₁ s' : Session} (h : s.Logged s₁) (h' : s₁.Logged s') : s.Logged s' := by
  obtain ⟨notes, hnotes⟩ := h.log
  obtain ⟨notes', hnotes'⟩ := h'.log
  exact ⟨h'.volume.trans h.volume, h'.output.trans h.output, notes ++ notes', by rw [hnotes', hnotes, List.append_assoc]⟩

theorem Session.logged_note (s : Session) (wanted : Bool) (text : Bytes) : s.Logged (if wanted then s.note text else s) := by
  cases wanted with
  | false => exact .refl s
  | true => exact ⟨rfl, rfl, _, rfl⟩

theorem openSource_saved {v v₁ v₂ : Volume} (h₁ : Saved v v₁) (h₂ : Saved v v₂) {path : Bytes} (hpath : Code.fileEnding <:+ path)
    {source : Source} (h : v₁.openSource path = .ok source) : v₂.openSource path = .ok source := by
  unfold Volume.openSource at h ⊢
  cases hfind : v₁.find path with
  | error cause => simp [hfind] at h
  | ok node =>
    rw [(h₂.find hpath).mpr ((h₁.find hpath).mp hfind)]
    rwa [hfind] at h

theorem saved_update {v : Volume} {parent : Location} {name : Bytes} (hplace : Place v parent name) {s : Session}
    (hs : Saved v s.volume) (w : Writer) : Saved v (s.update (some (parent ++ [name])) w).volume :=
  hs.put (hs.place hplace) _

theorem writeFiles_cons_eq_none {verbose : Bool} {target : Option Location} {s s' : Session} {w w' : Writer} {path : Bytes}
    {rest : List Bytes} : writeFiles verbose target s w (path :: rest) = (s', w', none) ↔
      ∃ source w₁, s.volume.openSource path = .ok source ∧
        w.writeFile path (Code.unitName (Path.base path)) source = (w₁, none) ∧
        writeFiles verbose target ((if verbose then s.note (ascii "translating " ++ path) else s).update target w₁) w₁ rest =
          (s', w', none) := by
  have hvolume := (s.logged_note verbose (ascii "translating " ++ path)).volume
  rw [writeFiles, hvolume]
  cases s.volume.openSource path with
  | error e => simp
  | ok source =>
    simp only [Except.ok.injEq, exists_and_left, exists_eq_left']
    rcases w.writeFile path (Code.unitName (Path.base path)) source with ⟨w₁, _ | e⟩
    · simp
    · simp

section Mirrored

variable {v : Volume} {parent : Location} {name : Bytes}

/-- What is written to a file is written in memory, too, however far other files have grown. -/
theorem writeFiles_mirrored (hplace : Place v parent name) (verbose verbose' : Bool) {files : List Bytes}
    (hfiles : ∀ file ∈ files, Code.fileEnding <:+ file) {s s' t : Session} {w w' r : Writer} (hs : Saved v s.volume)
    (ht : Saved v t.volume) (h : Mirrors w r)
    (hwrite : writeFiles verbose (some (parent ++ [name])) s w files = (s', w', none)) :
    Saved v s'.volume ∧ ∃ t' r', writeFiles verbose' none t r files = (t', r', none) ∧ t.Logged t' ∧ Mirrors w' r' := by
  induction files generalizing s t w r with
  | nil =>
    obtain ⟨rfl, hrest⟩ := Prod.mk.inj hwrite
    obtain ⟨rfl, -⟩ := Prod.mk.inj hrest
    exact ⟨hs, t, r, rfl, .refl t, h⟩
  | cons path rest ih =>
    obtain ⟨source, w₁, hopen, hfirst, hrest⟩ := writeFiles_cons_eq_none.mp hwrite
    rw [List.forall_mem_cons] at hfiles
    obtain ⟨r₁, hfirst', hnext⟩ := h.writeFile hfirst
    have hnoted := s.logged_note verbose (ascii "translating " ++ path)
    have hnoted' := t.logged_note verbose' (ascii "translating " ++ path)
    obtain ⟨hsaved, t', r', hrest', hlogged, hmirrors⟩ :=
      ih hfiles.2 (saved_update hplace (hnoted.volume ▸ hs) w₁) (hnoted'.volume ▸ ht) hnext hrest
    refine ⟨hsaved, t', r', ?_, hnoted'.trans hlogged, hmirrors⟩
    exact writeFiles_cons_eq_none.mpr ⟨source, r₁, openSource_saved hs ht hfiles.1 hopen, hfirst', hrest'⟩

theorem writeProgram_mirrored (hplace : Place v parent name) (verbose verbose' bootstrap : Bool) {files : List Bytes}
    (hfiles : ∀ file ∈ files, Code.fileEnding <:+ file) {s s' t : Session} {w w' r : Writer} (hs : Saved v s.volume)
    (ht : Saved v t.volume) (h : Mirrors w r)
    (hwrite : writeProgram verbose (some (parent ++ [name])) bootstrap s w files = (s', w', none)) :
    Saved v s'.volume ∧ ∃ t' r', writeProgram verbose' none bootstrap t r files = (t', r', none) ∧ t.Logged t' ∧ Mirrors w' r' := by
  unfold writeProgram at hwrite ⊢
  rcases hstart : w.start bootstrap with ⟨w₁, _ | e⟩
  · obtain ⟨r₁, hstart', hnext⟩ := h.start hstart
    rw [hstart] at hwrite
    rw [hstart']
    exact writeFiles_mirrored hplace verbose verbose' hfiles (saved_update hplace hs w₁) ht hnext hwrite
  · simp [hstart] at hwrite

theorem create_eq_ok {output : Bytes} {volume : Volume} {loc : Location} (h : v.create output = .ok (volume, loc)) :
    v.locateNew output = .ok loc ∧ volume = v.put loc (.file []) := by
  unfold Volume.create at h
  cases hlocate : v.locateNew output with
  | error cause => simp [hlocate] at h
  | ok found =>
    rw [hlocate] at h
    obtain ⟨rfl, rfl⟩ := Prod.mk.inj (Except.ok.inj h)
    exact ⟨rfl, rfl⟩

theorem translateToFile_eq_none {verbose bootstrap : Bool} {s s' : Session} {output : Bytes} {files : List Bytes}
    (h : translateToFile verbose bootstrap s output files = (s', none)) :
    ∃ volume loc s₁ w₁ w', s.volume.create output = .ok (volume, loc) ∧
      writeProgram verbose (some loc) bootstrap { s with volume } (Writer.new volume.medium) files = (s₁, w₁, none) ∧
      w₁.close = (w', none) ∧ s' = s₁.update (some loc) w' := by
  unfold translateToFile at h
  rcases hcreate : s.volume.create output with e | ⟨volume, loc⟩
  · simp [hcreate] at h
  · simp only [hcreate] at h
    rcases hwrite : writeProgram verbose (some loc) bootstrap { s with volume } (Writer.new volume.medium) files with ⟨s₁, w₁, failure⟩
    rcases hclose : w₁.close with ⟨w', closing⟩
    simp only [hwrite, hclose] at h
    rcases failure with _ | e
    · rcases closing with _ | e
      · exact ⟨volume, loc, s₁, w₁, w', rfl, hwrite, hclose, (Prod.mk.inj h).1.symm⟩
      · simp at h
    · simp at h

theorem find_put_self {v' : Volume} {path text : Bytes} (hlocate : v.locate path = .ok (parent ++ [name])) (hsaved : Saved v v')
    (hplace : Place v parent name) : (v'.put (parent ++ [name]) (.file text)).find path = .ok (.file text) :=
  Volume.find_eq_ok_iff.mpr ⟨_, (hsaved.put (hsaved.place hplace) text).directories.locate.mpr hlocate,
    Volume.get?_put_self v' (by simp) _⟩

/-- A translation that succeeds has stored the assembly that is given in memory. -/
theorem translateToFile_spec {verbose bootstrap : Bool} {s s' : Session} {stem : Bytes} {files : List Bytes}
    (hmedium : s.volume.medium.contents = []) (hfiles : ∀ file ∈ files, Code.fileEnding <:+ file)
    (h : translateToFile verbose bootstrap s (stem ++ assemblyEnding) files = (s', none)) :
    ∃ text, Saved s.volume s'.volume ∧ s'.volume.find (stem ++ assemblyEnding) = .ok (.file text) ∧
      ∀ (verbose' : Bool) (t : Session), Saved s.volume t.volume →
        ∃ t', translateToText verbose' bootstrap t files = (t', .ok text) ∧ t.Logged t' := by
  obtain ⟨volume, loc, s₁, w₁, w', hcreate, hwrite, hclose, rfl⟩ := translateToFile_eq_none h
  obtain ⟨hnew, rfl⟩ := create_eq_ok hcreate
  obtain ⟨parent, rfl, hplace⟩ := Volume.place_of_locateNew (by decide) (by decide) (by decide) hnew
  have hstart : Saved s.volume (s.volume.put (parent ++ [(Path.split stem).2 ++ assemblyEnding]) (.file [])) :=
    .put .refl hplace []
  have hmirrors := Mirrors.new s.volume.medium hmedium
  obtain ⟨hsaved, -⟩ := writeProgram_mirrored hplace verbose verbose bootstrap hfiles hstart .refl hmirrors hwrite
  refine ⟨w'.sink.contents, saved_update hplace hsaved w', find_put_self (Volume.locate_of_locateNew hnew).1 hsaved hplace, ?_⟩
  intro verbose' t ht
  obtain ⟨-, t', r', hwrite', hlogged, hmirrored⟩ :=
    writeProgram_mirrored hplace verbose verbose' bootstrap hfiles hstart ht hmirrors hwrite
  obtain ⟨r'', hclose', hcontents⟩ := hmirrored.close hclose
  refine ⟨t', ?_, hlogged⟩
  simp only [translateToText, hwrite', hclose', hcontents]

end Mirrored

/-! ## The start of the assembly -/

theorem emitted_prefix_of_writeFiles {verbose : Bool} {target : Option Location} {s s' : Session} {w w' : Writer}
    {files : List Bytes} (h : writeFiles verbose target s w files = (s', w', none)) : w.emitted <+: w'.emitted := by
  induction files generalizing s w with
  | nil =>
    obtain ⟨-, hrest⟩ := Prod.mk.inj h
    obtain ⟨rfl, -⟩ := Prod.mk.inj hrest
    exact List.prefix_rfl
  | cons path rest ih =>
    obtain ⟨source, w₁, -, hfirst, hrest⟩ := writeFiles_cons_eq_none.mp h
    exact (Code.emitted_prefix_of_writeFile hfirst).trans (ih hrest)

theorem resetStack_prefix_of_translateToText {verbose : Bool} {s s' : Session} {files : List Bytes} {text : Bytes}
    (h : translateToText verbose true s files = (s', .ok text)) : Code.Block.resetStack.text <+: text := by
  unfold translateToText writeProgram at h
  rcases hstart : (Writer.new {}).start true with ⟨w, _ | e⟩
  · simp only [hstart] at h
    rcases hwrite : writeFiles verbose none (s.update none w) w files with ⟨s₁, w₁, _ | e⟩
    · simp only [hwrite] at h
      rcases hclose : w₁.close with ⟨w', _ | e⟩
      · simp only [hclose, Prod.mk.injEq, Except.ok.injEq] at h
        rw [← h.2, Code.contents_close hclose]
        exact (Code.resetStack_prefix_of_start hstart).trans (emitted_prefix_of_writeFiles hwrite)
      · simp [hclose] at h
    · simp [hwrite] at h
  · simp [hstart] at h

end HackPlatform.Console
