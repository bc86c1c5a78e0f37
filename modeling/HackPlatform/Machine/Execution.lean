import HackPlatform.Machine.Computer
import HackPlatform.Machine.Instruction

/-!
# Execution

`Computer.step` executes one instruction. A step that fails leaves the computer as it was; only a keyboard that answered
with a failure has been polled. `Computer.run` repeats steps until the program counter leaves instruction memory, the
program parks in a halt loop, a step fails, or a limit of cycles is reached.
-/

namespace HackPlatform.Computer

/-- Why a step failed. -/
inductive Fault where
  /-- The program counter is outside of instruction memory. -/
  | pcOutOfRom (pc : Int)
  /-- The second operand is at an address that does not exist. -/
  | readOutOfRange (pc : Int) (addr : Nat)
  /-- The result goes to an address that does not exist. -/
  | writeOutOfRange (pc : Int) (addr : Nat)
  /-- The keyboard failed. -/
  | keyboardFailure (message : Bytes)
  /-- The keyboard broke down. -/
  | keyboardBreakdown (message : Bytes)
deriving DecidableEq

def Fault.message : Fault → Bytes
  | pcOutOfRom pc => ascii "pc " ++ Numeral.ofInt pc ++ ascii " out of ROM"
  | readOutOfRange pc addr =>
    ascii "pc " ++ Numeral.ofInt pc ++ ascii ": read at address " ++ Numeral.ofNat addr ++ ascii " out of range"
  | writeOutOfRange pc addr =>
    ascii "pc " ++ Numeral.ofInt pc ++ ascii ": write at address " ++ Numeral.ofNat addr ++ ascii " out of range"
  | keyboardFailure message => message
  | keyboardBreakdown message => message

/-- The outcome of a step: the next state, or a fault and the state that it leaves. -/
inductive Step where
  | done (next : Computer)
  | failed (fault : Fault) (state : Computer)

/-- The instruction at the program counter. -/
def fetch? (c : Computer) : Option Instruction :=
  match c.pc with
  | .ofNat n => c.rom[n]?
  | .negSucc _ => none

/-- Is the instruction the second one of a halt loop? A halt loop is an instruction that loads its own address, and an
unconditional jump right after it that stores nothing. -/
def closesHaltLoop (c : Computer) (i : Instruction) : Bool :=
  i.jump == 7 && i.dest == 0 && (c.a.toNat : Int) == c.pc - 1 && c.rom[c.a.toNat]? == some c.a

/-- Finishes a compute instruction: stores the result and moves the program counter. -/
def finish (c : Computer) (i : Instruction) (result : Word) : Computer :=
  let jumps := i.jumpsOn result
  let parks := jumps && c.closesHaltLoop i
  let ⟨pc, a, d, rom, ram, cycles, halted, keyboard⟩ := c
  -- A as it was says where to store and where to jump, even if the result goes to A
  { pc := if jumps then a.toNat else pc + 1
    a := if i.storesA then result else a
    d := if i.storesD then result else d
    rom
    ram := if i.storesMemory then ram.write a.toNat result else ram
    cycles
    halted := halted || parks
    keyboard }

/-- Computes on D and the second operand, and stores the result. -/
def execute (c : Computer) (i : Instruction) (operand : Word) : Step :=
  if i.storesMemory && c.ram.size ≤ c.a.toNat then .failed (.writeOutOfRange c.pc c.a.toNat) c
  else
    let result := Alu.output c.d operand i.comp
    .done (c.finish i result)

/-- Stores a key code in the keyboard register; the keyboard has been polled. -/
def storeKey (c : Computer) (k : Keyboard) (code : Word) : Computer :=
  let ⟨pc, a, d, rom, ram, cycles, halted, _⟩ := c
  { pc, a, d, rom, ram := ram.write keyboardAddress code, cycles, halted, keyboard := some k.advance }

/-- Brings the keyboard register up to date, if a keyboard is bound and the address is that of the register. -/
def poll (c : Computer) (addr : Nat) : Step :=
  if addr = keyboardAddress then
    match c.keyboard with
    | none => .done c
    | some k =>
      match k.next with
      | .key code => .done (c.storeKey k code)
      | .failure message => .failed (.keyboardFailure message) { c with keyboard := some k.advance }
      | .breakdown message => .failed (.keyboardBreakdown message) { c with keyboard := some k.advance }
  else .done c

def compute (c : Computer) (i : Instruction) : Step :=
  if i.readsMemory then
    let addr := c.a.toNat
    if addr < c.ram.size then
      -- only reading asks the keyboard: a store to its register does not
      match c.poll addr with
      | .failed fault state => .failed fault state
      | .done c =>
        let operand := c.ram.read addr
        c.execute i operand
    else .failed (.readOutOfRange c.pc addr) c
  else
    let operand := c.a
    c.execute i operand

/-- Executes one instruction. -/
def step (c : Computer) : Step :=
  match c.fetch? with
  | none => .failed (.pcOutOfRom c.pc) c
  | some i => if i.isLoad then .done { c with a := i.value, pc := c.pc + 1 } else c.compute i

/-- How a run ended. -/
inductive Ending where
  /-- The program parked in a halt loop, or left instruction memory. -/
  | stopped
  /-- The budget of cycles was used up. -/
  | exhausted
  /-- A step failed. -/
  | failed (fault : Fault)
deriving DecidableEq

/-- Is the program counter inside of instruction memory? -/
def inRom (c : Computer) : Bool := 0 ≤ c.pc && c.pc < c.rom.size

def tick (c : Computer) : Computer := { c with cycles := c.cycles + 1 }

/-- Executes at most `budget` instructions. -/
def runFor : Nat → Computer → Computer × Ending
  | 0, c => if c.inRom then (c, .exhausted) else (c, .stopped)
  | budget + 1, c =>
    if c.inRom then
      match c.step with
      | .failed fault state => (state, .failed fault)
      | .done next =>
        let next := next.tick
        if next.halted then (next, .stopped) else runFor budget next
    else (c, .stopped)

/-- The largest number of cycles that can be counted: the budget of a run without a limit. -/
def maxCycles : Nat := 9223372036854775807

/-- The budget of a run: the limit, if it is positive. -/
def budget (limit : Int) : Nat := if 0 < limit then limit.toNat else maxCycles

/-- Runs the program; a limit that is not positive is no limit. -/
def run (limit : Int) (c : Computer) : Computer × Ending :=
  runFor (budget limit) { c with cycles := 0, halted := false }

/-- The wording of an ending that is a failure, for the state that the run left and its limit. -/
def Ending.message? (limit : Int) (c : Computer) : Ending → Option Bytes
  | .stopped => none
  | .exhausted =>
    some (ascii "cycle limit (" ++ Numeral.ofInt limit ++ ascii ") reached @pc=" ++ Numeral.ofInt c.pc)
  | .failed (.keyboardFailure message) =>
    some (ascii "recovered error @pc=" ++ Numeral.ofInt c.pc ++ ascii "/" ++ Numeral.ofNat c.rom.size ++ ascii ": " ++
      message)
  | .failed fault => some fault.message

end HackPlatform.Computer
