import HackPlatform.Console.Assemble
import HackPlatform.Console.Invocation
import HackPlatform.Console.Translate
import HackPlatform.Machine.Report
import HackPlatform.Machine.Screen

/-!
# Executing invocations

Arguments are read first, then the settings, and then the tool is used. Nothing is done for arguments that are refused.

The runner is the tool that executes a program. It takes a program image, an assembly file or stack code, and prints the
stack, or all of the computer's state, at the end. There is no terminal: the keyboard is not read.
-/

namespace HackPlatform.Console

/-- A program, and whether it sets up its own stack. -/
structure Program where
  rom : Array Instruction
  startsItself : Bool

/-- Loads the program of a path by its ending. Stack code is translated and assembled in memory. -/
def loadProgram (settings : Settings) (verbose : Bool) (path : Bytes) (s : Session) :
    Session × Except Failure Program :=
  if Path.ending path == imageEnding then (s, (loadImage s.volume path).map (⟨·, false⟩))
  else if Path.ending path == assemblyEnding then (s, (assembleFile s.volume path).map (⟨·, false⟩))
  else
    match Sources.find s.volume path with
    | .error e => (s, .error e)
    | .ok sources =>
      let bootstrap := sources.isDirectory && settings.bootstrap
      match translateToText verbose bootstrap s sources.files with
      | (s, .error e) => (s, .error e)
      | (s, .ok text) =>
        (s, ((Assembly.assemble path (Source.ofBytes text)).mapError .assembly).map (⟨·, bootstrap⟩))

/-- The setting that gives a program a stack. -/
def initialStack : Computer.Setting := .preset 0 256

/-- A computer for a program, with the presets. It has a stack if neither the program nor a preset sets one up. -/
def newComputer (settings : Settings) (program : Program) : Except Failure Computer :=
  match settings.presetSettings with
  | .error e => .error (.preset e)
  | .ok presets =>
    let needsStack := !program.startsItself && !settings.hasPreset 0
    (Computer.new program.rom (if needsStack then initialStack :: presets else presets)).mapError .setting

/-- The columns of the screen's rendition where there is no terminal. -/
def screenColumns : Int := 64

def printScreen (wanted : Bool) (c : Computer) (s : Session) : Session × Option Failure :=
  if wanted then
    let (output, e) := c.render s.output screenColumns false
    ({ s with output }, e.map .stream)
  else (s, none)

def printReport (full : Bool) (c : Computer) (s : Session) : Session × Option Failure :=
  if full then
    let (output, e) := Stream.emit s.output (c.dumpTexts?.getD [])
    ({ s with output }, e.map .stream)
  else
    let (output, fault) := c.report s.output
    ({ s with output }, fault.map .report)

/-- The line that is logged when keys cannot be read one by one. -/
def rawRefused : Bytes := ascii "raw IO disabled: Tcgetattr failed: inappropriate ioctl for device"

/-- The line that is logged after a run. -/
def runSummary (c : Computer) : Bytes :=
  Numeral.ofNat c.cycles ++ ascii " cycles, halted: " ++ ascii (if c.halted then "true" else "false")

/-- Runs a computer, and prints what is asked for if the run comes to its end. -/
def runComputer (limit : Int) (o : Options) (c : Computer) (s : Session) : Session × Option Failure :=
  let (c, ending) := c.run limit
  let s := if o.verbose then s.note (runSummary c) else s
  match ending with
  | .stopped =>
    match printScreen o.screen c s with
    | (s, some e) => (s, some e)
    | (s, none) => printReport o.dump c s
  | _ => (s, some (.run limit c ending))

def run (settings : Settings) (o : Options) (path : Bytes) (s : Session) : Session × Option Failure :=
  match loadProgram settings o.verbose path s with
  | (s, .error e) => (s, some e)
  | (s, .ok program) =>
    match newComputer settings program with
    | .error e => (s, some e)
    | .ok c =>
      -- there is no terminal to be switched over, which only those who debug are told
      let s := if settings.raw && !o.noRaw && o.debug then s.note rawRefused else s
      runComputer (o.cycles.getD settings.maxCycles) o c s

def Tool.use (t : Tool) (settings : Settings) (o : Options) (path : Bytes) (s : Session) : Session × Option Failure :=
  match t with
  | .translate => Console.translate settings o path s
  | .assemble => Console.assemble o path s
  | .run => Console.run settings o path s

/-- Loads the settings that the options ask for. -/
def loadSettings (o : Options) (v : Volume) : Except Settings.LoadError Settings :=
  if o.config.isEmpty then Settings.load v Settings.defaultPath false else Settings.load v o.config true

/-- Does what arguments ask for. -/
def execute (arguments : List Bytes) (s : Session) : Session × Option Failure :=
  match Invocation.read arguments with
  | .error e => (s, some (.usage e))
  | .ok .guidance => (s, none)
  | .ok (.settledGuidance o) =>
    match loadSettings o s.volume with
    | .error e => (s, some (.settings e))
    | .ok _ => (s, none)
  | .ok (.use t o path) =>
    match loadSettings o s.volume with
    | .error e => (s, some (.settings e))
    | .ok settings => t.use settings o path s

end HackPlatform.Console
