import HackPlatform.Text.Bytes

/-!
# Names

A name is a non-empty sequence of ASCII letters, digits, `_`, `.` and `:` that does not start with a digit. Assembly symbols
may also hold `$`, which stack code cannot: generated symbols use it to stay apart from names of the program.
-/

namespace HackPlatform

/-- May the byte stand in a name? -/
def isNameByte (b : UInt8) : Bool := Bytes.isLetter b || Bytes.isDigit b || b == 95 || b == 46 || b == 58

/-- May the byte stand in an assembly symbol? -/
def isSymbolByte (b : UInt8) : Bool := isNameByte b || b == 36

/-- Is the text a sequence of bytes of the given kind that starts with none that is a digit? -/
def isWordOf (kind : UInt8 → Bool) : Bytes → Bool
  | [] => false
  | b :: rest => !Bytes.isDigit b && kind b && rest.all kind

/-- Is the text the name of a label or function of stack code? -/
def isIdentifier (s : Bytes) : Bool := isWordOf isNameByte s

/-- Is the text an assembly symbol? -/
def isSymbol (s : Bytes) : Bool := isWordOf isSymbolByte s

theorem not_mem_of_isWordOf {kind : UInt8 → Bool} {name : Bytes} {b : UInt8} (h : isWordOf kind name = true)
    (hb : kind b = false) : b ∉ name := by
  cases name with
  | nil => simp
  | cons c rest =>
    simp only [isWordOf, Bool.and_eq_true, List.all_eq_true] at h
    intro hmem
    rcases List.mem_cons.mp hmem with rfl | hmem
    · rw [hb] at h
      exact Bool.noConfusion h.1.2
    · have := h.2 b hmem
      rw [hb] at this
      exact Bool.noConfusion this

end HackPlatform
