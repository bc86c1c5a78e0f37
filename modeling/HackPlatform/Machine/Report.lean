import HackPlatform.Machine.Computer
import HackPlatform.Stream.Guarded

/-!
# Reports

The dump of a computer shows its registers, the segment pointers, the temp segment and the stack. The short report shows
the stack alone.
-/

namespace HackPlatform.Computer

/-- The decimal texts of words, with a space between neighbours, each a text of its own. -/
def wordTexts : List Word → List Bytes
  | [] => []
  | w :: rest => Numeral.ofInt w.signed :: rest.flatMap fun w => [[32], Numeral.ofInt w.signed]

/-- The names of the segment pointers, which are the first words of memory. -/
def pointerNames : List String := ["SP", "LCL", "ARG", "THIS", "THAT"]

def pointerTexts (c : Computer) : List Bytes :=
  (pointerNames.zipIdx.flatMap fun (name, k) =>
    [[32], ascii name ++ ascii ": " ++ Numeral.ofInt (c.ram.read k).signed]).drop 1

def registerText (c : Computer) : Bytes :=
  ascii "PC: " ++ Numeral.ofInt c.pc ++ ascii " A: " ++ Numeral.ofInt c.a.signed ++ ascii " D: " ++
    Numeral.ofInt c.d.signed

/-- The words of the stack, none if there is no stack. -/
def stackWords (c : Computer) : List Word := c.stack?.getD []

/-- The texts of a dump. There are none if the five pointers cannot be addressed or the cells of the temp segment do
not exist. -/
def dumpTexts? (c : Computer) : Option (List Bytes) :=
  if c.ram.size < 5 || c.ram.cells.size < 13 then none
  else some (
    [c.registerText, ascii " cycles: " ++ Numeral.ofNat c.cycles ++ [10]] ++ c.pointerTexts ++
    [ascii "\ntemp: "] ++ wordTexts (c.ram.slice 5 13) ++
    [ascii "\nstack: "] ++ wordTexts c.stackWords ++ [[10]])

/-- Writes a dump; `none` if the memory is too small for one. -/
def dump? (c : Computer) (sink : Stream.Sink) : Option (Stream.Sink × Option Stream.Error) :=
  c.dumpTexts?.map (Stream.emit sink)

/-- The text of the short report: the words of the stack in brackets. -/
def stackText (c : Computer) : Bytes := [91] ++ (wordTexts c.stackWords).flatten ++ [93, 10]

/-- Writes the short report with a single write, and gives the sink's own answer. -/
def report (c : Computer) (sink : Stream.Sink) : Stream.Sink × Option Stream.Fault :=
  let (sink, receipt) := sink.write c.stackText
  (sink, receipt.fault)

end HackPlatform.Computer
