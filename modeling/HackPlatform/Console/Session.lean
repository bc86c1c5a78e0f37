import HackPlatform.Assembly.Program
import HackPlatform.Code.Build
import HackPlatform.Console.Flag
import HackPlatform.Machine.Execution
import HackPlatform.Machine.Image
import HackPlatform.Settings.File

/-!
# Sessions

A session is what a tool works on: a volume, the output that it prints, and a log. A tool gives the session afterwards and, apart
from it, what went wrong, so that nothing that was printed or logged before a failure is lost.
-/

namespace HackPlatform.Console

/-- The world of a tool. -/
structure Session where
  volume : Volume := {}
  /-- What the tool prints. -/
  output : Stream.Sink := {}
  /-- What the tool logs. -/
  log : Bytes := []

def Session.note (s : Session) (text : Bytes) : Session :=
  let line := ascii "vmt: " ++ text
  { s with log := s.log ++ if line.getLast? = some 10 then line else line ++ [10] }

/-- Why a tool failed. -/
inductive Failure where
  | usage (error : UsageError)
  | settings (error : Settings.LoadError)
  /-- A file could not be opened. -/
  | notOpened (error : AccessError)
  /-- A path leads nowhere. -/
  | notFound (error : AccessError)
  /-- A file could not be made. -/
  | notCreated (error : AccessError)
  /-- A file that is neither a directory nor stack code. -/
  | notStackCode (path : Bytes)
  /-- A directory's path is a malformed pattern. -/
  | badPattern
  /-- A directory without stack code. -/
  | noStackCode (path : Bytes)
  | build (error : Code.BuildError)
  | assembly (error : Assembly.Error)
  | image (path : Bytes) (error : Image.Error)
  | preset (error : Settings.PresetError)
  | setting (error : Computer.SettingError)
  /-- A run that did not come to its end: its limit, and the computer that it left. -/
  | run (limit : Int) (computer : Computer) (ending : Computer.Ending)
  /-- Output could not be written. -/
  | stream (error : Stream.Error)
  /-- The report could not be written. -/
  | report (fault : Stream.Fault)

def Failure.message : Failure → Bytes
  | usage error => error.message
  | settings error => error.message
  | notOpened error => ascii "open failed: " ++ error.message
  | notFound error => ascii "stat failed: " ++ error.message
  | notCreated error => ascii "create failed: " ++ error.message
  | notStackCode path => path ++ ascii ": not a .vm file"
  | badPattern => ascii "glob failed: syntax error in pattern"
  | noStackCode path => path ++ ascii ": no .vm files found"
  | build error => error.message
  | assembly error => error.message
  | image path error => path ++ ascii ": " ++ error.message
  | preset error => error.message
  | setting error => error.message
  | run limit computer ending => (ending.message? limit computer).getD []
  | stream error => error.message
  | report fault => fault.message

end HackPlatform.Console
