import HackPlatform.Text.Numeral
import HackPlatform.Text.Quoted

/-!
# Flags

Arguments that start with a hyphen are flags. A flag is given by its name behind two hyphens, or by its letter behind one;
letters of switches can be joined. Its value stands behind an equals sign or is the next argument, and for letters it may
follow directly. A switch takes a value only behind an equals sign. Two hyphens alone end the flags.
-/

namespace HackPlatform.Console

inductive Flag where
  | config
  | debug
  | verbose
  | help
  | output
  | noBootstrap
  | listing
  | cycles
  | dump
  | screen
  | noRaw
  /-- Leaves descriptions out of a script for a shell. -/
  | noDescriptions
deriving DecidableEq

namespace Flag

def name : Flag → Bytes
  | config => ascii "config"
  | debug => ascii "debug"
  | verbose => ascii "verbose"
  | help => ascii "help"
  | output => ascii "output"
  | noBootstrap => ascii "noboot"
  | listing => ascii "disasm"
  | cycles => ascii "cycles"
  | dump => ascii "dump"
  | screen => ascii "screen"
  | noRaw => ascii "noraw"
  | noDescriptions => ascii "no-descriptions"

def letter? : Flag → Option UInt8
  | verbose => some (byteOf 'v')
  | help => some (byteOf 'h')
  | output => some (byteOf 'o')
  | listing => some (byteOf 'd')
  | cycles => some (byteOf 'c')
  | _ => none

/-- Is the flag a switch, which is on or off? -/
def isSwitch : Flag → Bool
  | config | output | cycles => false
  | _ => true

/-- The forms of a flag, as messages show them. -/
def forms (f : Flag) : Bytes :=
  match f.letter? with
  | some c => [45, c] ++ ascii ", --" ++ f.name
  | none => ascii "--" ++ f.name

def named? (flags : List Flag) (text : Bytes) : Option Flag := flags.find? (·.name == text)

def lettered? (flags : List Flag) (c : UInt8) : Option Flag := flags.find? (·.letter? == some c)

end Flag

/-- What the flags have set. -/
structure Options where
  /-- The settings file that was asked for. -/
  config : Bytes := []
  debug : Bool := false
  verbose : Bool := false
  help : Bool := false
  /-- The output file that was asked for. -/
  output : Bytes := []
  noBootstrap : Bool := false
  listing : Bool := false
  /-- The limit of cycles that was asked for. -/
  cycles : Option Int := none
  dump : Bool := false
  screen : Bool := false
  noRaw : Bool := false

/-- Why arguments were refused. -/
inductive UsageError where
  | badSyntax (argument : Bytes)
  | unknownFlag (name : Bytes)
  | missingValue (argument : Bytes)
  /-- A letter of no flag, and the letters from it on. -/
  | unknownLetter (c : UInt8) (letters : Bytes)
  | missingLetterValue (c : UInt8) (letters : Bytes)
  | invalidNumber (value : Bytes) (flag : Flag) (fault : Numeral.Fault)
  | invalidSwitch (value : Bytes) (flag : Flag)
  /-- A word that names no tool, and the names that are close to it. -/
  | unknownCommand (word : Bytes) (similar : List Bytes)
  | wrongCount (received : Nat)
  /-- A word behind the name of a shell, where none is taken. -/
  | surplusWord (word shell : Bytes)
  /-- Nothing was given to be completed. -/
  | nothingToComplete
deriving DecidableEq

namespace UsageError

/-- The wording of a value that a flag refused. -/
def refusedValue (value : Bytes) (flag : Flag) (reader : String) (reason : Bytes) : Bytes :=
  ascii "invalid argument " ++ Quoted.text value ++ ascii " for " ++ Quoted.text flag.forms ++ ascii " flag: " ++
    ascii reader ++ ascii ": parsing " ++ Quoted.text value ++ ascii ": " ++ reason

def suggestions (similar : List Bytes) : Bytes :=
  if similar.isEmpty then []
  else ascii "\n\nDid you mean this?\n" ++ similar.flatMap fun name => [9] ++ name ++ [10]

def message : UsageError → Bytes
  | badSyntax argument => ascii "bad flag syntax: " ++ argument
  | unknownFlag name => ascii "unknown flag: --" ++ name
  | missingValue argument => ascii "flag needs an argument: " ++ argument
  | unknownLetter c letters => ascii "unknown shorthand flag: " ++ Quoted.byte c ++ ascii " in -" ++ letters
  | missingLetterValue c letters => ascii "flag needs an argument: " ++ Quoted.byte c ++ ascii " in -" ++ letters
  | invalidNumber value flag fault => refusedValue value flag "strconv.ParseInt" fault.message
  | invalidSwitch value flag => refusedValue value flag "strconv.ParseBool" Numeral.Fault.invalid.message
  | unknownCommand word similar =>
    ascii "unknown command " ++ Quoted.text word ++ ascii " for \"vmt\"" ++ suggestions similar
  | wrongCount received => ascii "accepts 1 arg(s), received " ++ Numeral.ofNat received
  | surplusWord word shell =>
    ascii "unknown command " ++ Quoted.text word ++ ascii " for " ++ Quoted.text (ascii "vmt completion " ++ shell)
  | nothingToComplete => ascii "requires at least 1 arg(s), only received 0"

end UsageError

namespace Options

def switch (o : Options) (f : Flag) (on : Bool) : Options :=
  match f with
  | .debug => { o with debug := on }
  | .verbose => { o with verbose := on }
  | .help => { o with help := on }
  | .noBootstrap => { o with noBootstrap := on }
  | .listing => { o with listing := on }
  | .dump => { o with dump := on }
  | .screen => { o with screen := on }
  | .noRaw => { o with noRaw := on }
  | .config | .output | .cycles | .noDescriptions => o

def set (o : Options) (f : Flag) (value : Bytes) : Except UsageError Options :=
  match f with
  | .config => .ok { o with config := value }
  | .output => .ok { o with output := value }
  | .cycles =>
    match Numeral.readAnyBase value with
    | .ok n => .ok { o with cycles := some n }
    | .error fault => .error (.invalidNumber value f fault)
  | _ =>
    match Numeral.readBool? value with
    | some on => .ok (o.switch f on)
    | none => .error (.invalidSwitch value f)

/-- Reads a flag given by its name. Says whether the next argument was its value. -/
def readNamed (o : Options) (flags : List Flag) (argument : Bytes) (next : Option Bytes) :
    Except UsageError (Options × Bool) :=
  let body := argument.drop 2
  if body.isEmpty || body.head? == some 45 || body.head? == some 61 then .error (.badSyntax argument)
  else
    let (name, value) := match Bytes.splitAtFirst? 61 body with
      | some (name, value) => (name, some value)
      | none => (body, none)
    match Flag.named? flags name with
    | none => .error (.unknownFlag name)
    | some f =>
      match value with
      | some value => (o.set f value).map (·, false)
      | none =>
        if f.isSwitch then .ok (o.switch f true, false)
        else match next with
          | some value => (o.set f value).map (·, true)
          | none => .error (.missingValue argument)

/-- The letters with which arguments start that are passed over. -/
def ignoredStart : Bytes := ascii "test."

/-- Reads flags given by their letters. Says whether the next argument was the value of the last one. -/
def readLetters (flags : List Flag) (next : Option Bytes) : Options → Bytes → Except UsageError (Options × Bool)
  | o, [] => .ok (o, false)
  | o, c :: tail =>
    if ignoredStart.isPrefixOf (c :: tail) then .ok (o, false)
    else match Flag.lettered? flags c with
      | none => .error (.unknownLetter c (c :: tail))
      | some f =>
        -- an equals sign at the very end marks no value
        if tail.head? == some 61 && 1 < tail.length then (o.set f (tail.drop 1)).map (·, false)
        else if f.isSwitch then readLetters flags next (o.switch f true) tail
        else if !tail.isEmpty then (o.set f tail).map (·, false)
        else match next with
          | some value => (o.set f value).map (·, true)
          | none => .error (.missingLetterValue c (c :: tail))

/-- Is the argument a flag, or the end of the flags? -/
def isFlag (argument : Bytes) : Bool := argument.head? == some 45 && 1 < argument.length

/-- The argument that ends the flags. -/
def endOfFlags : Bytes := ascii "--"

/-- Reads the flags among arguments. Gives what they set and the other arguments, after those that have been read,
reversed. -/
def read (flags : List Flag) : Options → List Bytes → List Bytes → Except UsageError (Options × List Bytes)
  | o, done, [] => .ok (o, done.reverse)
  | o, done, argument :: rest =>
    if !isFlag argument then read flags o (argument :: done) rest
    else if argument == endOfFlags then .ok (o, done.reverse ++ rest)
    else
      let taken :=
        if endOfFlags.isPrefixOf argument then o.readNamed flags argument rest.head?
        else readLetters flags rest.head? o (argument.drop 1)
      match taken, rest with
      | .error e, _ => .error e
      | .ok (o, true), _ :: rest => read flags o done rest
      | .ok (o, _), rest => read flags o done rest

end Options

end HackPlatform.Console
