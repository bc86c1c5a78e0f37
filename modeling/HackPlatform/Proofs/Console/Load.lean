import HackPlatform.Console.Execute
import HackPlatform.Proofs.Code.Startup
import HackPlatform.Proofs.Console.Assemble
import HackPlatform.Proofs.Console.Presets
import HackPlatform.Proofs.Machine.Extend

/-!
# All ways to load a program agree

Stack code can be run as it is, as the assembly that it is translated to, or as the image that this is assembled to. All three
load the same program (`loadProgram_agrees`), and the runs of it cannot be told apart (`loading_agrees`), although the stack pointer is
not set up in the same way: a preset gives it to assembly and images, and the start-up code, if there is any, to stack code. The
start-up code forgets what the preset has stored (`newComputer_alike`).
-/

namespace HackPlatform

open Computer (Twins EndsAlike RunsAlike Setting)

/-! ## Presets -/

namespace Computer

variable {c c' : Computer}

theorem Twins.configure (h : Twins c c') {addr : Int} (haddr : addr ≠ 0) (w : Word) :
    (∃ e, c.configure (.preset addr w) = .error e ∧ c'.configure (.preset addr w) = .error e) ∨
      ∃ m m', m.size = c.ram.size ∧ Twins { c with ram := m } { c' with ram := m' } ∧
        c.configure (.preset addr w) = .ok { c with ram := m } ∧ c'.configure (.preset addr w) = .ok { c' with ram := m' } := by
  obtain ⟨hframe, hram⟩ := h
  have hsize := hram.size_eq
  unfold Computer.configure
  simp only [← hsize]
  split
  · exact .inl ⟨_, rfl, rfl⟩
  · rename_i hrange
    have hpositive : addr.toNat ≠ 0 := by
      simp only [Bool.or_eq_true, decide_eq_true_eq, not_or] at hrange
      omega
    refine .inr ⟨c.ram.write addr.toNat w, c'.ram.write addr.toNat w, rfl, ⟨?_, hram.write hpositive w⟩, rfl, rfl⟩
    rw [hframe]

theorem Twins.configureAll (h : Twins c c') {presets : List Setting}
    (hpresets : ∀ p ∈ presets, ∃ addr w, p = .preset addr w ∧ addr ≠ 0) :
    (∃ e, (c.configureAll presets).2 = some e ∧ (c'.configureAll presets).2 = some e) ∨
      ∃ m m', m.size = c.ram.size ∧ Twins { c with ram := m } { c' with ram := m' } ∧
        c.configureAll presets = ({ c with ram := m }, none) ∧ c'.configureAll presets = ({ c' with ram := m' }, none) := by
  induction presets generalizing c c' with
  | nil => exact .inr ⟨c.ram, c'.ram, rfl, h, rfl, rfl⟩
  | cons p rest ih =>
    rw [List.forall_mem_cons] at hpresets
    obtain ⟨⟨addr, w, rfl, haddr⟩, hrest⟩ := hpresets
    rcases h.configure haddr w with ⟨e, hc, hc'⟩ | ⟨m, m', hsize, htwins, hc, hc'⟩
    · exact .inl ⟨e, by simp [Computer.configureAll, hc], by simp [Computer.configureAll, hc']⟩
    · simp only [Computer.configureAll, hc, hc']
      rcases ih htwins hrest with herror | ⟨n, n', hsize', htwins', hn, hn'⟩
      · exact .inl herror
      · exact .inr ⟨n, n', hsize'.trans hsize, htwins', hn, hn'⟩

end Computer

namespace Console

/-- Both attempts to make a computer fail in the same way, or the runs of both computers end alike. -/
inductive ComputersAlike : Except Failure Computer → Except Failure Computer → Prop
  | error (e : Failure) : ComputersAlike (.error e) (.error e)
  | ok {c c' : Computer} (h : ∀ limit, EndsAlike (c.run limit) (c'.run limit)) : ComputersAlike (.ok c) (.ok c')

theorem ComputersAlike.refl (r : Except Failure Computer) : ComputersAlike r r := by
  cases r with
  | error e => exact .error e
  | ok c => exact .ok fun limit => .refl _

/-- A preset for the stack pointer makes no difference to a program that starts with the start-up code. -/
theorem computersAlike_of_resetStack {rom : Array Instruction} {value : Bytes → Nat} {presets : List Setting}
    (hinstalled : Assembly.Installed rom value 0 Code.Block.resetStack) (hvalue : value (ascii "SP") = 0)
    (hpresets : ∀ p ∈ presets, ∃ addr w, p = .preset addr w ∧ addr ≠ 0) :
    ComputersAlike ((Computer.new rom presets).mapError .setting)
      ((Computer.new rom (initialStack :: presets)).mapError .setting) := by
  have hstack : ({ rom } : Computer).configure initialStack = .ok { rom, ram := (Memory.blank Memory.maxSize).write 0 256 } := rfl
  have htwins : Twins { rom } { rom, ram := (Memory.blank Memory.maxSize).write 0 256 } := ⟨rfl, .write_zero _ _⟩
  simp only [Computer.new, Computer.configureAll, hstack]
  rcases htwins.configureAll hpresets with ⟨e, hc, hc'⟩ | ⟨m, m', hsize, hleft, hc, hc'⟩
  · generalize Computer.configureAll { rom } presets = left at hc ⊢
    generalize Computer.configureAll { rom, ram := (Memory.blank Memory.maxSize).write 0 256 } presets = left' at hc' ⊢
    obtain ⟨d, _⟩ := left
    obtain ⟨d', _⟩ := left'
    subst hc hc'
    exact .error _
  · have hroom : 0 < m.size := by
      rw [hsize]
      exact (by decide : 0 < Memory.maxSize)
    rw [hc, hc']
    refine .ok fun limit => ?_
    exact Computer.runsAlike_of_resetStack ⟨rfl, hleft.ram⟩ rfl rfl hroom hinstalled hvalue (Computer.budget limit)

/-- Whether a program sets up its own stack makes no difference to what its runs show. -/
theorem newComputer_alike (settings : Settings) {rom : Array Instruction} {startsItself : Bool}
    (hstart : startsItself = true →
      ∃ value, Assembly.Installed rom value 0 Code.Block.resetStack ∧ value (ascii "SP") = 0) :
    ComputersAlike (newComputer settings ⟨rom, startsItself⟩) (newComputer settings ⟨rom, false⟩) := by
  cases startsItself with
  | false => exact .refl _
  | true =>
    obtain ⟨value, hinstalled, hvalue⟩ := hstart rfl
    unfold newComputer
    cases hpresets : settings.presetSettings with
    | error e => exact .error _
    | ok presets =>
      cases hpreset : settings.hasPreset 0 with
      | true => exact .refl _
      | false => exact computersAlike_of_resetStack hinstalled hvalue (Settings.preset_ne_zero hpresets hpreset)

/-! ## Results -/

/-- Two uses of a tool show the same: they fail with the same message, or not at all, and they print the same, and log the same behind
what was logged before. -/
structure SameResult (log log' : Bytes) (r r' : Session × Option Failure) : Prop where
  failure : r'.2.map Failure.message = r.2.map Failure.message
  output : r'.1.output = r.1.output
  log : ∃ notes, r.1.log = log ++ notes ∧ r'.1.log = log' ++ notes

theorem SameResult.append {log log' notes : Bytes} {r r' : Session × Option Failure}
    (h : SameResult (log ++ notes) (log' ++ notes) r r') : SameResult log log' r r' := by
  obtain ⟨added, hadded, hadded'⟩ := h.log
  exact ⟨h.failure, h.output, notes ++ added, by rw [hadded, List.append_assoc], by rw [hadded', List.append_assoc]⟩

variable {s s' : Session}

theorem sameResult_printScreen (wanted : Bool) (c : Computer) (h : s'.output = s.output) :
    SameResult s.log s'.log (printScreen wanted c s) (printScreen wanted c s') := by
  unfold printScreen
  rw [h]
  cases wanted with
  | false => exact ⟨rfl, h, [], by simp, by simp⟩
  | true => exact ⟨rfl, rfl, [], by simp, by simp⟩

theorem sameResult_printReport (full : Bool) (c : Computer) (h : s'.output = s.output) :
    SameResult s.log s'.log (printReport full c s) (printReport full c s') := by
  unfold printReport
  rw [h]
  cases full with
  | false => exact ⟨rfl, rfl, [], by simp, by simp⟩
  | true => exact ⟨rfl, rfl, [], by simp, by simp⟩

/-- Prints what is asked for after a run. -/
def printResult (o : Options) (c : Computer) (s : Session) : Session × Option Failure :=
  match printScreen o.screen c s with
  | (s, some e) => (s, some e)
  | (s, none) => printReport o.dump c s

theorem sameResult_printResult (o : Options) (c : Computer) (h : s'.output = s.output) :
    SameResult s.log s'.log (printResult o c s) (printResult o c s') := by
  unfold printResult
  have hscreen := sameResult_printScreen o.screen c h
  generalize printScreen o.screen c s = r at hscreen ⊢
  generalize printScreen o.screen c s' = r' at hscreen ⊢
  obtain ⟨s₁, answer⟩ := r
  obtain ⟨s₁', answer'⟩ := r'
  cases answer with
  | some e =>
    cases answer' with
    | some e' => exact hscreen
    | none => exact absurd hscreen.failure (by simp)
  | none =>
    cases answer' with
    | some e' => exact absurd hscreen.failure (by simp)
    | none =>
      obtain ⟨notes, hnotes, hnotes'⟩ := hscreen.log
      have hreport := sameResult_printReport o.dump c hscreen.output
      rw [hnotes, hnotes'] at hreport
      exact hreport.append

theorem exists_notes (wanted : Bool) (text : Bytes) (s s' : Session) :
    ∃ notes, (if wanted then s.note text else s).log = s.log ++ notes ∧
      (if wanted then s'.note text else s').log = s'.log ++ notes := by
  cases wanted with
  | false => exact ⟨[], by simp, by simp⟩
  | true => exact ⟨_, rfl, rfl⟩

theorem sameResult_runComputer {limit : Int} (o : Options) {c c' : Computer} (h : EndsAlike (c.run limit) (c'.run limit))
    (hs : s'.output = s.output) : SameResult s.log s'.log (runComputer limit o c s) (runComputer limit o c' s') := by
  unfold runComputer
  obtain ⟨hending, hleft⟩ := h
  generalize c.run limit = r at hending hleft ⊢
  generalize c'.run limit = r' at hending hleft ⊢
  obtain ⟨d, ending⟩ := r
  obtain ⟨d', ending'⟩ := r'
  simp only at hending hleft ⊢
  subst hending
  have hsummary : runSummary d' = runSummary d := by
    rcases hleft with rfl | ⟨-, htwins⟩
    · rfl
    · rw [htwins.frame]
      rfl
  rw [hsummary]
  obtain ⟨notes, hnotes, hnotes'⟩ := exists_notes o.verbose (runSummary d) s s'
  have houtput : (if o.verbose then s'.note (runSummary d) else s').output =
      (if o.verbose then s.note (runSummary d) else s).output := by
    rw [(s'.logged_note _ _).output, (s.logged_note _ _).output, hs]
  cases ending' with
  | stopped =>
    obtain rfl := hleft.resolve_right (by simp)
    have hprint := sameResult_printResult o d' houtput
    rw [hnotes, hnotes'] at hprint
    exact hprint.append
  | failed fault =>
    obtain rfl := hleft.resolve_right (by simp)
    exact ⟨rfl, houtput, notes, hnotes, hnotes'⟩
  | exhausted =>
    have hpc : d'.pc = d.pc := by
      rcases hleft with rfl | ⟨-, htwins⟩
      · rfl
      · rw [htwins.frame]
    refine ⟨?_, houtput, notes, hnotes, hnotes'⟩
    simp [Failure.message, Computer.Ending.message?, hpc]

/-! ## Loading -/

/-- What the runner does with a program. -/
def runProgram (settings : Settings) (o : Options) (program : Program) (s : Session) : Session × Option Failure :=
  match newComputer settings program with
  | .error e => (s, some e)
  | .ok c =>
    runComputer (o.cycles.getD settings.maxCycles) o c (if settings.raw && !o.noRaw && o.debug then s.note rawRefused else s)

theorem run_of_loadProgram {settings : Settings} {o : Options} {path : Bytes} {program : Program}
    (h : loadProgram settings o.verbose path s = (s', .ok program)) : run settings o path s = runProgram settings o program s' := by
  rw [run, h]
  rfl

theorem sameResult_runProgram {settings : Settings} (o : Options) {program program' : Program}
    (h : ComputersAlike (newComputer settings program) (newComputer settings program'))
    (hs : s'.output = s.output) : SameResult s.log s'.log (runProgram settings o program s) (runProgram settings o program' s') := by
  unfold runProgram
  generalize newComputer settings program = made at h ⊢
  generalize newComputer settings program' = made' at h ⊢
  cases h with
  | error e => exact ⟨rfl, hs, [], by simp, by simp⟩
  | ok h =>
    obtain ⟨notes, hnotes, hnotes'⟩ := exists_notes (settings.raw && !o.noRaw && o.debug) rawRefused s s'
    have houtput : (if settings.raw && !o.noRaw && o.debug then s'.note rawRefused else s').output =
        (if settings.raw && !o.noRaw && o.debug then s.note rawRefused else s).output := by
      rw [(s'.logged_note _ _).output, (s.logged_note _ _).output, hs]
    have hrun := sameResult_runComputer o (h (o.cycles.getD settings.maxCycles)) houtput
    rw [hnotes, hnotes'] at hrun
    exact hrun.append

theorem loadImage_of_find {v : Volume} {path name : Bytes} {source : Source} {rom : Array Instruction}
    (hassemble : Assembly.assemble name source = .ok rom) (h : v.find path = .ok (.file (Image.lines rom).flatten)) :
    loadImage v path = .ok rom := by
  obtain ⟨-, program, -, -, hsize, hwords⟩ := (Assembly.assemble_eq_ok_iff _ _ _).mp hassemble
  have hlength : rom.size ≤ Image.maxInstructions := by
    rw [← Array.length_toList, hwords, Assembly.length_words]
    exact hsize
  have hdecode := (Image.decode_written rom rom).mpr ⟨rfl, hlength⟩
  rw [← Image.flatten_lines] at hdecode
  simp [loadImage, Volume.openSource_file h, hdecode, Except.mapError]

theorem assembleFile_eq_ok_iff {v : Volume} {path text : Bytes} {rom : Array Instruction} (h : v.find path = .ok (.file text)) :
    assembleFile v path = .ok rom ↔ Assembly.assemble path (Source.ofBytes text) = .ok rom := by
  simp only [assembleFile, Volume.openSource_file h]
  cases Assembly.assemble path (Source.ofBytes text) with
  | error e => simp [Except.mapError]
  | ok rom' => simp [Except.mapError]

section

variable {settings : Settings} {o o' : Options} {path : Bytes} {sources : Sources} {s₁ s₁' s₂ : Session}

/-- Translating and then assembling to files leaves the program that is translated and assembled in memory. -/
theorem loadProgram_agrees (hmedium : s.volume.medium.contents = [])
    (hpath : Path.ending path ≠ assemblyEnding ∧ Path.ending path ≠ imageEnding)
    (hsources : Sources.find s.volume path = .ok sources)
    (ho : o.output = [] ∧ o.noBootstrap = false) (htranslate : translate settings o path s = (s₁, none))
    (hbetween : s₁'.volume = s₁.volume)
    (ho' : o'.output = [] ∧ o'.listing = false) (hassemble : assemble o' sources.output s₁' = (s₂, none)) :
    ∃ rom text, Assembly.assemble path (Source.ofBytes text) = .ok rom ∧ ∀ verbose t, t.volume = s₂.volume →
      (∃ t', translateToText verbose (sources.isDirectory && settings.bootstrap) t sources.files = (t', .ok text) ∧ t.Logged t' ∧
        loadProgram settings verbose path t = (t', .ok ⟨rom, sources.isDirectory && settings.bootstrap⟩)) ∧
      loadProgram settings verbose sources.output t = (t, .ok ⟨rom, false⟩) ∧
      loadProgram settings verbose (Path.dropEnding sources.output ++ imageEnding) t = (t, .ok ⟨rom, false⟩) := by
  obtain ⟨hfiles, stem, hstem⟩ := Sources.find_endings hsources
  have hwritten : translateToFile o.verbose (sources.isDirectory && settings.bootstrap) s (stem ++ assemblyEnding) sources.files =
      (s₁, none) := by
    rw [← htranslate, translate, hsources]
    simp [ho, hstem]
  obtain ⟨text, hsaved, hfile, htext⟩ := translateToFile_spec hmedium hfiles hwritten
  rw [← hbetween] at hsaved hfile
  rw [hstem] at hassemble ⊢
  have hmedium' : s₁'.volume.medium.contents = [] := by rw [hsaved.medium, hmedium]
  obtain ⟨rom, hrom, hsaved', hkept, himage⟩ := assemble_spec hmedium' ho'.1 ho'.2 hassemble
  have hboth := hsaved.trans hsaved'
  have hassembled := (assembleFile_eq_ok_iff hfile).mp hrom
  have hmemory : Assembly.assemble path (Source.ofBytes text) = .ok rom := assemble_name hassembled
  refine ⟨rom, text, hmemory, fun verbose t hvolume => ?_⟩
  rw [← hvolume] at hboth hkept himage
  refine ⟨?_, ?_, ?_⟩
  · obtain ⟨t', ht', hlogged⟩ := htext verbose t hboth
    refine ⟨t', ht', hlogged, ?_⟩
    simp [loadProgram, hpath, Sources.find_saved hboth hsources, ht', hmemory, Except.mapError, Except.map]
  · have hending : Path.ending (stem ++ assemblyEnding) = assemblyEnding := Path.IsEnding.ending_append (by decide) stem
    have hother : (assemblyEnding == imageEnding) = false := by decide
    have hloaded := (assembleFile_eq_ok_iff ((hkept _).mpr hfile)).mpr hassembled
    simp [loadProgram, hending, hother, hloaded, Except.map]
  · have hending : Path.ending (stem ++ imageEnding) = imageEnding := Path.IsEnding.ending_append (by decide) stem
    have hdrop : Path.dropEnding (stem ++ assemblyEnding) = stem := Path.IsEnding.dropEnding_append (by decide) stem
    simp [loadProgram, hdrop, hending, loadImage_of_find hassembled himage, Except.map]

/-- All ways to load a program agree. Once a file or directory of stack code has been translated, and the assembly has been assembled,
the path, the assembly file and the image stand for the same instructions. The computers that are made for them differ at
most in the first stack pointer, and their runs end alike, after as many cycles. With the same options, the runner then fails
with the same message or prints the same for all three, and what it logs for the path differs only in what is logged while it
is translated once more. Each tool may be used in a session of its own, on the volume that is left by the one before. -/
theorem loading_agrees (hmedium : s.volume.medium.contents = [])
    (hpath : Path.ending path ≠ assemblyEnding ∧ Path.ending path ≠ imageEnding)
    (hsources : Sources.find s.volume path = .ok sources)
    (ho : o.output = [] ∧ o.noBootstrap = false) (htranslate : translate settings o path s = (s₁, none))
    (hbetween : s₁'.volume = s₁.volume)
    (ho' : o'.output = [] ∧ o'.listing = false) (hassemble : assemble o' sources.output s₁' = (s₂, none)) :
    let image := Path.dropEnding sources.output ++ imageEnding
    let startsItself := sources.isDirectory && settings.bootstrap
    ∃ rom, ComputersAlike (newComputer settings ⟨rom, startsItself⟩) (newComputer settings ⟨rom, false⟩) ∧
      ∀ options t, t.volume = s₂.volume →
        (∃ t', loadProgram settings options.verbose path t = (t', .ok ⟨rom, startsItself⟩)) ∧
        loadProgram settings options.verbose sources.output t = (t, .ok ⟨rom, false⟩) ∧
        loadProgram settings options.verbose image t = (t, .ok ⟨rom, false⟩) ∧
        (∃ notes, SameResult (t.log ++ notes) t.log (run settings options path t) (run settings options sources.output t)) ∧
        run settings options image t = run settings options sources.output t := by
  intro image startsItself
  obtain ⟨rom, text, hrom, hload⟩ := loadProgram_agrees hmedium hpath hsources ho htranslate hbetween ho' hassemble
  have halike : ComputersAlike (newComputer settings ⟨rom, startsItself⟩) (newComputer settings ⟨rom, false⟩) := by
    refine newComputer_alike settings fun hstarts => Code.exists_installed_resetStack hrom ?_
    obtain ⟨⟨t', htext, -⟩, -⟩ := hload false s₂ rfl
    have hbootstrap : (sources.isDirectory && settings.bootstrap) = true := hstarts
    rw [hbootstrap] at htext
    exact resetStack_prefix_of_translateToText htext
  refine ⟨rom, halike, fun options t hvolume => ?_⟩
  obtain ⟨⟨t', -, hlogged, hstack⟩, hassembly, himage⟩ := hload options.verbose t hvolume
  refine ⟨⟨t', hstack⟩, hassembly, himage, ?_, ?_⟩
  · obtain ⟨notes, hnotes⟩ := hlogged.log
    refine ⟨notes, ?_⟩
    rw [run_of_loadProgram hstack, run_of_loadProgram hassembly, ← hnotes]
    exact sameResult_runProgram options halike hlogged.output.symm
  · rw [run_of_loadProgram hassembly, run_of_loadProgram himage]

end

theorem contents_runComputer {limit : Int} {c left : Computer} (h : c.run limit = (left, .stopped)) (hlimit : s.output.limit = none) :
    (runComputer limit {} c s).1.output.contents = s.output.contents ++ left.stackText := by
  have hroom : s.output.HasRoom left.stackText.length := fun limit hsome => by simp [hlimit] at hsome
  simp [runComputer, h, printScreen, printReport, Computer.report, Stream.Sink.write_of_room hroom, Stream.Sink.contents]

/-- A program that stops in `n` words of memory prints the same stack in all of memory. -/
theorem contents_run_of_stopped {path : Bytes} {rom : Array Instruction} {n : Nat} {words : List Word}
    (hload : loadProgram {} false path s = (s, .ok ⟨rom, false⟩)) (hlimit : s.output.limit = none)
    (hn : n ≤ Memory.maxSize) (hpos : 0 < n)
    (hstopped : (Computer.run 10000000 { rom, ram := (Memory.blank n).write 0 256 }).2 = .stopped)
    (hwords : (Computer.run 10000000 { rom, ram := (Memory.blank n).write 0 256 }).1.stack? = some words) :
    (run {} {} path s).1.output.contents =
      s.output.contents ++ ([91] ++ (Computer.wordTexts words).flatten ++ [93, 10]) := by
  have hcomputer : newComputer {} ⟨rom, false⟩ = .ok { rom, ram := (Memory.blank Memory.maxSize).write 0 256 } := rfl
  obtain ⟨left, hrun, hleft⟩ := (Computer.extends_blank rom hn hpos 256).run rfl hstopped hwords
  have hprinted := contents_runComputer hrun hlimit
  rw [Computer.stackText, Computer.stackWords, hleft] at hprinted
  rw [run_of_loadProgram hload, runProgram, hcomputer]
  exact hprinted

/-- A directory with a program that starts itself and then jumps in place: what is printed is the frame of the call that started it. -/
theorem loading_agrees_directory :
    let s : Session := { volume := { nodes := [([ascii "d"], .directory),
      ([ascii "d", ascii "Sys.vm"], .file (ascii "function Sys.init 0\nlabel LOOP\ngoto LOOP\n"))] } }
    ∃ s₁ s₂ rom, translate {} {} (ascii "d") s = (s₁, none) ∧ assemble {} (ascii "d/d.asm") s₁ = (s₂, none) ∧
      let t : Session := { volume := s₂.volume }
      (∃ t', loadProgram {} false (ascii "d") t = (t', .ok ⟨rom, true⟩)) ∧
      loadProgram {} false (ascii "d/d.hack") t = (t, .ok ⟨rom, false⟩) ∧
      ∀ path ∈ [ascii "d", ascii "d/d.asm", ascii "d/d.hack"],
        (run {} {} path t).1.output.contents = ascii "[51 0 0 0 0]\n" := by
  intro s
  let block := Code.programCode true [(ascii "Sys", .function (ascii "Sys.init") 0), (ascii "Sys", .label (ascii "LOOP")),
    (ascii "Sys", .goto (ascii "LOOP"))]
  let rom := (Assembly.words (Assembly.symbolValue block) block).toArray
  have hmedium : s.volume.medium.contents = [] := rfl
  have hsources : Sources.find s.volume (ascii "d") = .ok ⟨[ascii "d/Sys.vm"], ascii "d/d.asm", true⟩ := by
    have houtput : Path.join (ascii "d") (Path.base (s.volume.absolute (ascii "d")) ++ assemblyEnding) = ascii "d/d.asm" := by
      decide +kernel
    refine Sources.find_eq_ok_iff.mpr (.inr ⟨[ascii "d/Sys.vm"], by decide +kernel, by decide +kernel, by simp, ?_⟩)
    rw [List.mergeSort_singleton, houtput]
  obtain ⟨s₁, hwritten, hfile, hnew⟩ : ∃ s₁,
      translateToFile false true s (ascii "d/d" ++ assemblyEnding) [ascii "d/Sys.vm"] = (s₁, none) ∧
      s₁.volume.find (ascii "d/d.asm") = .ok (.file block.text) ∧
      s₁.volume.locateNew (ascii "d/d.hack") = .ok [ascii "d", ascii "d.hack"] := by
    let result := translateToFile false true s (ascii "d/d" ++ assemblyEnding) [ascii "d/Sys.vm"]
    obtain ⟨hdone, hleft⟩ : result.2.isNone = true ∧ result.1.volume.find (ascii "d/d.asm") = .ok (.file block.text) ∧
        result.1.volume.locateNew (ascii "d/d.hack") = .ok [ascii "d", ascii "d.hack"] := by decide +kernel
    exact ⟨result.1, Prod.ext rfl (Option.isNone_iff_eq_none.mp hdone), hleft⟩
  have htranslate : translate {} {} (ascii "d") s = (s₁, none) := by
    rw [translate, hsources]
    exact hwritten
  obtain ⟨-, hsaved, -⟩ := translateToFile_spec hmedium (by decide +kernel) hwritten
  have hrom : Assembly.assemble (ascii "d/d.asm") (Source.ofBytes block.text) = .ok rom := by
    rw [Code.Block.text_eq_flatMap]
    exact Assembly.assemble_of_readable _ (by decide +kernel) (by decide +kernel) (by decide +kernel) (by decide +kernel)
  -- the program needs no more than 300 words of memory
  have hstops : (Computer.run 10000000 { rom, ram := (Memory.blank 300).write 0 256 }).2 = .stopped ∧
      (Computer.run 10000000 { rom, ram := (Memory.blank 300).write 0 256 }).1.stack? = some [51, 0, 0, 0, 0] := by
    decide +kernel
  clear_value rom
  obtain ⟨s₂, hsave⟩ := saveImage_of_unlimited hnew (by rw [hsaved.medium]) (by rw [hsaved.medium]; rfl) rom
  have hassemble : assemble {} (ascii "d/d.asm") s₁ = (s₂, none) := by
    simp only [assemble, (assembleFile_eq_ok_iff hfile).mpr hrom]
    exact hsave
  -- from here on the session is not to be evaluated
  clear_value s
  have hmedium' : s₁.volume.medium.contents = [] := by rw [hsaved.medium, hmedium]
  have hstem : assemble {} (ascii "d/d" ++ assemblyEnding) s₁ = (s₂, none) := hassemble
  obtain ⟨-, -, -, hkept, -⟩ := assemble_spec hmedium' rfl rfl hstem
  have hloaded : assembleFile s₂.volume (ascii "d/d.asm") = .ok rom := (assembleFile_eq_ok_iff ((hkept _).mpr hfile)).mpr hrom
  obtain ⟨rom', -, hagree⟩ := loading_agrees hmedium (by decide) hsources ⟨rfl, rfl⟩ htranslate rfl ⟨rfl, rfl⟩ hassemble
  obtain ⟨hstack, hassembly, himage, ⟨_, hresult⟩, hsame⟩ := hagree {} { volume := s₂.volume } rfl
  obtain rfl : rom = rom' := by
    have hending : (Path.ending (ascii "d/d.asm") == imageEnding) = false ∧
        (Path.ending (ascii "d/d.asm") == assemblyEnding) = true := by decide
    simpa [loadProgram, hending, hloaded, Except.map] using hassembly
  have hprinted : (run {} {} (ascii "d/d.asm") { volume := s₂.volume }).1.output.contents = ascii "[51 0 0 0 0]\n" := by
    have htext : [91] ++ (Computer.wordTexts [51, 0, 0, 0, 0]).flatten ++ [93, 10] = ascii "[51 0 0 0 0]\n" := by decide +kernel
    rw [contents_run_of_stopped hassembly rfl (by decide : 300 ≤ Memory.maxSize) (by decide) hstops.1 hstops.2]
    exact htext
  refine ⟨s₁, s₂, rom, htranslate, hassemble, hstack, himage, ?_⟩
  simp only [List.forall_mem_cons, List.not_mem_nil, false_imp_iff, implies_true, and_true]
  exact ⟨hresult.output ▸ hprinted, hprinted, hsame ▸ hprinted⟩

end Console

end HackPlatform
