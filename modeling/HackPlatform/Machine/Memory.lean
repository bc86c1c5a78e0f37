import HackPlatform.Machine.Instruction

/-!
# Data memory

Data memory is a row of words of which the first `size` can be addressed. Making the memory smaller hides cells and keeps
their contents; making it larger gives a new row, in which the cells past the old size are zero.
-/

namespace HackPlatform

structure Memory where
  /-- All cells, those that cannot be addressed included. -/
  cells : Array Word
  /-- The number of cells that can be addressed. -/
  size : Nat
  size_le : size ≤ cells.size

namespace Memory

/-- The most words of data memory. -/
def maxSize : Nat := 32768

/-- Memory of `n` zero words. -/
def blank (n : Nat) : Memory := ⟨Array.replicate n 0, n, by simp⟩

instance : Inhabited Memory := ⟨blank 0⟩

/-- The word at an address, hidden cells included; zero past the last cell. -/
def read (m : Memory) (addr : Nat) : Word := m.cells.getD addr 0

/-- The word at an address, if it can be addressed. -/
def get? (m : Memory) (addr : Nat) : Option Word := if addr < m.size then some (m.read addr) else none

def write : Memory → Nat → Word → Memory
  | ⟨cells, size, h⟩, addr, w => ⟨cells.setIfInBounds addr w, size, by simpa using h⟩

/-- Memory in which `n` words can be addressed. -/
def resize (m : Memory) (n : Nat) : Memory :=
  if h : n ≤ m.size then ⟨m.cells, n, Nat.le_trans h m.size_le⟩
  else ⟨(Array.range n).map fun addr => (m.get? addr).getD 0, n, by simp⟩

/-- The words from address `first` up to, but not including, address `last`, hidden cells included. -/
def slice (m : Memory) (first last : Nat) : List Word := (m.cells.extract first last).toList

end Memory

end HackPlatform
