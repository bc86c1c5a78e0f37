import HackPlatform.Stream.Sink

/-!
# Guarded streams

A guarded stream remembers its first failure: from then on every write fails in the same way and nothing reaches the
stream below. A write that the stream below takes only in part is a failure even if that stream keeps silent about it.
-/

namespace HackPlatform.Stream

/-- A stream that remembers its first failure. -/
structure Guarded (σ : Type) where
  outlet : σ
  failure : Option Error := none

namespace Guarded

variable {σ : Type} [Outlet σ]

/-- Writes bytes, unless the stream has failed before; gives the number of bytes taken. -/
def write (g : Guarded σ) (p : Bytes) : Guarded σ × Nat :=
  match g.failure with
  | some _ => (g, 0)
  | none =>
    let (outlet, receipt) := Outlet.write g.outlet p
    let fault := match receipt.fault with
      | some f => some f
      | none => if receipt.count < p.length then some .short else none
    ({ outlet, failure := fault.map (⟨.write, ·⟩) }, receipt.count)

/-- Writes texts one after the other. -/
def writeAll (g : Guarded σ) (texts : List Bytes) : Guarded σ :=
  texts.foldl (fun g p => (g.write p).1) g

end Guarded

/-- Writes texts to a sink through a guard; gives the sink and the failure, if there was one. -/
def emit {σ : Type} [Outlet σ] (outlet : σ) (texts : List Bytes) : σ × Option Error :=
  let g := Guarded.writeAll { outlet } texts
  (g.outlet, g.failure)

end HackPlatform.Stream
