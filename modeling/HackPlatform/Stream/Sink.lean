import HackPlatform.Text.Bytes

/-!
# Sinks

A sink is where written bytes end up: a file, a terminal, a buffer in memory. It may be limited: a write that does not
fit stores what fits, and the sink answers with the count of stored bytes, with or without a fault. It may have an
end of its own to be closed, which may fail.
-/

namespace HackPlatform.Stream

/-- What can go wrong at a sink. -/
inductive Fault where
  /-- The sink has no room left. -/
  | full
  /-- Fewer bytes were taken than given, and the sink gave no reason. -/
  | short
  /-- The sink could not be closed. -/
  | notClosed
deriving DecidableEq

def Fault.message : Fault → Bytes
  | full => ascii "sink full"
  | short => ascii "short write"
  | notClosed => ascii "sink close error"

/-- The activity during which a stream failed. -/
inductive Stage where
  | write
  | flush
  | close
deriving DecidableEq

def Stage.word : Stage → Bytes
  | write => ascii "write"
  | flush => ascii "flush"
  | close => ascii "close"

/-- A failure of a stream: the activity and its cause. -/
structure Error where
  stage : Stage
  fault : Fault
deriving DecidableEq

def Error.message (e : Error) : Bytes := e.stage.word ++ ascii " failed: " ++ e.fault.message

/-- The answer to one write: how many bytes were taken, and what went wrong. -/
structure Receipt where
  count : Nat
  fault : Option Fault
deriving DecidableEq

/-- Something that takes bytes. -/
class Outlet (σ : Type) where
  /-- Offers bytes; gives the state afterwards and the answer. -/
  write : σ → Bytes → σ × Receipt

/-- A store of bytes. -/
structure Sink where
  /-- The most bytes that it holds; `none` for a sink that never fails. -/
  limit : Option Nat := none
  /-- Does it keep silent about a write that does not fit? -/
  silent : Bool := false
  /-- Has it an end of its own to be closed? -/
  closable : Bool := false
  /-- Does closing it fail? -/
  closeFails : Bool := false
  /-- The bytes taken so far. -/
  stored : Array UInt8 := #[]
  /-- How often it was closed. -/
  closes : Nat := 0

namespace Sink

/-- The bytes taken so far. -/
def contents (s : Sink) : Bytes := s.stored.toList

def write (s : Sink) (p : Bytes) : Sink × Receipt :=
  match s.limit with
  | none => ({ s with stored := s.stored ++ p }, ⟨p.length, none⟩)
  | some limit =>
    let room := limit - s.stored.size
    if p.length ≤ room then ({ s with stored := s.stored ++ p }, ⟨p.length, none⟩)
    else
      let silent := s.silent
      ({ s with stored := s.stored ++ p.take room }, ⟨room, if silent then none else some .full⟩)

/-- Closes the sink, if it has an end of its own. -/
def close (s : Sink) : Sink × Option Fault :=
  if s.closable then
    let fails := s.closeFails
    ({ s with closes := s.closes + 1 }, if fails then some .notClosed else none)
  else (s, none)

instance : Outlet Sink := ⟨write⟩

end Sink

end HackPlatform.Stream
