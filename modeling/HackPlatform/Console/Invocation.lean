import HackPlatform.Console.Flag
import HackPlatform.Text.Utf8

/-!
# Invocations

The first argument that is no flag, nor the value of one, names the tool. Each tool takes one path besides its flags, and
the flags of all tools may stand anywhere. Instead of a tool, guidance may be asked for; like a tool it has flags, and
some of it is given only after the settings have been read.
-/

namespace HackPlatform.Console

inductive Tool where
  | translate
  | assemble
  | run
deriving DecidableEq

namespace Tool

def name : Tool → Bytes
  | translate => ascii "translate"
  | assemble => ascii "asm"
  | run => ascii "run"

def all : List Tool := [translate, assemble, run]

/-- The flags of a tool that no other has to have. -/
def ownFlags : Tool → List Flag
  | translate => [.output, .noBootstrap]
  | assemble => [.output, .listing]
  | run => [.cycles, .dump, .screen, .noRaw]

end Tool

/-- The flags of all tools. -/
def commonFlags : List Flag := [.config, .debug, .verbose]

/-- What a word in the place of a tool's name asks for. -/
inductive Topic where
  | tool (t : Tool)
  /-- Help. -/
  | help
  /-- A script by which a shell completes arguments. -/
  | completion
  /-- The completions of arguments, for such a script. -/
  | completions
deriving DecidableEq

def helpWord : Bytes := ascii "help"

/-- The word that asks for a script for a shell. -/
def completionWord : Bytes := ascii "completion"

/-- The words that ask for completions, with and without descriptions. -/
def completionsWords : List Bytes := [ascii "__complete", ascii "__completeNoDesc"]

/-- The shells that there are scripts for. -/
def shells : List Bytes := [ascii "bash", ascii "zsh", ascii "fish", ascii "powershell"]

/-- What a word asks for. -/
def Topic.ofWord? (word : Bytes) : Option Topic :=
  match Tool.all.find? (·.name == word) with
  | some t => some (.tool t)
  | none =>
    if word == helpWord then some .help
    else if word == completionWord then some .completion
    else if completionsWords.contains word then some .completions
    else none

/-- Is the argument a flag whose value is the next argument? A flag that is not known counts as one. -/
def takesNext (flags : List Flag) (argument : Bytes) : Bool :=
  match argument with
  | 45 :: 45 :: name => !argument.contains 61 && !(Flag.named? flags name).any Flag.isSwitch
  | [45, c] => c != 61 && !(Flag.lettered? flags c).any Flag.isSwitch
  | _ => false

/-- The arguments that are neither flags nor their values. The last argument is not looked at if the one before it may
need it. -/
def words (flags : List Flag) : List Bytes → List Bytes
  | [] => []
  | argument :: rest =>
    if argument == Options.endOfFlags then []
    else if takesNext flags argument then
      match rest with
      | [] => []
      | [_] => []
      | _ :: rest => words flags rest
    else if argument.isEmpty || argument.head? == some 45 then words flags rest
    else argument :: words flags rest

/-- The arguments without the word that names the tool. -/
def dropWord (flags : List Flag) (word : Bytes) : List Bytes → List Bytes
  | [] => []
  | argument :: rest =>
    if argument == Options.endOfFlags then argument :: rest
    else if takesNext flags argument then
      match rest with
      | [] => [argument]
      | value :: rest => argument :: value :: dropWord flags word rest
    else if argument == word then rest
    else argument :: dropWord flags word rest

/-- The row of edit distances that follows a row when one more byte of the first word is read. -/
def distanceRow (b : UInt8) (corner left : Nat) : List UInt8 → List Nat → List Nat
  | c :: word, above :: row =>
    let here := if b = c then corner else min (min left above) corner + 1
    here :: distanceRow b above here word row
  | _, _ => []

/-- The edit distance: the least number of bytes to insert, remove or replace to make one word the other. -/
def distance (first second : Bytes) : Nat :=
  -- the distances of the empty word from the starts of the second one
  let start := List.range (second.length + 1)
  let last := first.foldl (fun row b =>
    match row with
    | [] => []
    | corner :: rest => (corner + 1) :: distanceRow b corner (corner + 1) second rest) start
  last.getLastD 0

/-- The largest edit distance of similar words. -/
def maxDistance : Nat := 2

/-- Is a word close to a name, or the start of it, in any letter case? -/
def isSimilar (word name : Bytes) : Bool :=
  let word := Bytes.lowerRunes word
  let name := Bytes.lowerRunes name
  distance word name ≤ maxDistance || word.isPrefixOf name

/-- The names that a word may have been meant for. -/
def similarNames (word : Bytes) : List Bytes :=
  (Tool.all.map Tool.name ++ [completionWord]).filter (isSimilar word)

/-- What arguments ask for. -/
inductive Invocation where
  /-- Guidance, whatever the settings are. -/
  | guidance
  /-- Guidance that is given after the settings have been read. -/
  | settledGuidance (options : Options)
  /-- A tool, to be used on a path. -/
  | use (tool : Tool) (options : Options) (path : Bytes)

/-- Reads flags, the common ones among them, and goes on with what they have set and the other arguments, unless they ask
for help. -/
def readFlags (flags : List Flag) (arguments : List Bytes)
    (proceed : Options → List Bytes → Except UsageError Invocation) : Except UsageError Invocation :=
  match Options.read (flags ++ commonFlags ++ [.help]) {} [] arguments with
  | .error e => .error e
  | .ok (options, others) => if options.help then .ok .guidance else proceed options others

def readArguments (t : Tool) (arguments : List Bytes) : Except UsageError Invocation :=
  readFlags t.ownFlags arguments fun options paths =>
    match paths with
    | [path] => .ok (.use t options path)
    | _ => .error (.wrongCount paths.length)

/-- Reads the arguments of a shell's script, which takes only flags. -/
def readShell (shell : Bytes) (arguments : List Bytes) : Except UsageError Invocation :=
  readFlags [.noDescriptions] arguments fun options others =>
    match others with
    | [] => .ok (.settledGuidance options)
    | word :: _ => .error (.surplusWord word shell)

/-- Reads the arguments behind the word that asks for a script. They name the shell; if they do not, guidance is given. -/
def readCompletion (arguments : List Bytes) : Except UsageError Invocation :=
  match (words commonFlags arguments).head?.filter shells.contains with
  | some shell => readShell shell (dropWord commonFlags shell arguments)
  | none => readFlags [] arguments fun _ _ => .ok .guidance

/-- Reads arguments. What is to be completed is not read for flags. -/
def Invocation.read (arguments : List Bytes) : Except UsageError Invocation :=
  match words commonFlags arguments with
  | [] => readFlags [] arguments fun _ _ => .ok .guidance
  | word :: _ =>
    let others := dropWord commonFlags word arguments
    match Topic.ofWord? word with
    | none => .error (.unknownCommand word (similarNames word))
    | some (.tool t) => readArguments t others
    | some .help => readFlags [] others fun options _ => .ok (.settledGuidance options)
    | some .completion => readCompletion others
    | some .completions => if others.isEmpty then .error .nothingToComplete else .ok (.settledGuidance {})

end HackPlatform.Console
