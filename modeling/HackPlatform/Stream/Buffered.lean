import HackPlatform.Stream.Sink

/-!
# Buffered streams

A buffered stream collects bytes and passes them to its sink in blocks. While a write is longer than the free space, the
buffer is filled from it and flushed; what does not fit an empty buffer goes to the sink directly. Once the sink has
failed, the stream answers every write and flush with the same fault.
-/

namespace HackPlatform.Stream

/-- A sink behind a buffer. -/
structure Buffered where
  sink : Sink
  buffer : Array UInt8 := #[]
  fault : Option Fault := none

namespace Buffered

def capacity : Nat := 4096

/-- Passes the buffer to the sink. The bytes that the sink does not take stay in the buffer. -/
def flush (b : Buffered) : Buffered × Option Fault :=
  match b.fault with
  | some f => (b, some f)
  | none =>
    if b.buffer.isEmpty then (b, none)
    else
      let size := b.buffer.size
      let (sink, receipt) := b.sink.write b.buffer.toList
      let fault := match receipt.fault with
        | some f => some f
        | none => if receipt.count < size then some .short else none
      match fault with
      | none => ({ sink, buffer := #[], fault := none }, none)
      | some f => ({ sink, buffer := b.buffer.extract receipt.count size, fault := some f }, some f)

/-- Writes to a stream whose buffer is empty. What is too long for the buffer goes to the sink; a rest that the sink
left without a word is buffered. A rest that is still too long counts as a short write. -/
def writeEmpty (b : Buffered) (p : Bytes) : Buffered × Receipt :=
  if p.length ≤ capacity then ({ b with buffer := b.buffer ++ p }, ⟨p.length, none⟩)
  else
    let (sink, receipt) := b.sink.write p
    match receipt.fault with
    | some f => ({ b with sink, fault := some f }, receipt)
    | none =>
      let rest := p.drop receipt.count
      if rest.length ≤ capacity then ({ b with sink, buffer := b.buffer ++ rest }, ⟨p.length, none⟩)
      else ({ b with sink, fault := some .short }, ⟨receipt.count, some .short⟩)

def write (b : Buffered) (p : Bytes) : Buffered × Receipt :=
  match b.fault with
  | some f => (b, ⟨0, some f⟩)
  | none =>
    let free := capacity - b.buffer.size
    if p.length ≤ free then ({ b with buffer := b.buffer ++ p }, ⟨p.length, none⟩)
    else if b.buffer.isEmpty then b.writeEmpty p
    else
      -- the buffer is filled up first, so that the sink gets a whole block
      let (b, fault) := flush { b with buffer := b.buffer ++ p.take free }
      match fault with
      | some f => (b, ⟨free, some f⟩)
      | none =>
        let (b, receipt) := b.writeEmpty (p.drop free)
        (b, { receipt with count := free + receipt.count })

instance : Outlet Buffered := ⟨write⟩

end Buffered

end HackPlatform.Stream
