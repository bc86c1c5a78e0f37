import HackPlatform.Text.Bytes

/-!
# Paths

A path is a text: names with slashes between them. It is absolute if it starts with a slash. The functions of this module
work on the text alone; what a path leads to is up to the volume.
-/

namespace HackPlatform.Path

/-- The byte between the names of a path. -/
def separator : UInt8 := 47

/-- The name of the directory itself. -/
def here : Bytes := [46]

/-- The name of the directory above. -/
def above : Bytes := [46, 46]

/-- Does the path start at the root? -/
def isAbsolute (path : Bytes) : Bool := path.head? == some separator

/-- The names of a path, without the empty ones. -/
def names (path : Bytes) : List Bytes := (Bytes.pieces separator path).filter (!List.isEmpty ·)

/-- Adds a name to the cleaned names so far, which are reversed. -/
def cleanName (absolute : Bool) (done : List Bytes) (name : Bytes) : List Bytes :=
  if name == here then done
  else if name == above then
    match done with
    | last :: rest => if last == above then name :: done else rest
    | [] => if absolute then [] else [name]
  else name :: done

/-- The shortest path that is equal by its text: no empty names, no name of the directory itself, and a name of the
directory above only at the start of a path that is not absolute. -/
def clean (path : Bytes) : Bytes :=
  let absolute := isAbsolute path
  let joined := Bytes.joinWith [separator] ((names path).foldl (cleanName absolute) []).reverse
  if absolute then separator :: joined
  else if joined.isEmpty then here
  else joined

/-- The cleaned path of something inside of a directory. -/
def join (directory inner : Bytes) : Bytes :=
  if directory.isEmpty then (if inner.isEmpty then [] else clean inner)
  else clean (directory ++ [separator] ++ inner)

/-- The part of a path up to its last slash, and the part behind it. -/
def split (path : Bytes) : Bytes × Bytes :=
  let file := (path.reverse.takeWhile (· != separator)).reverse
  (path.take (path.length - file.length), file)

def base (path : Bytes) : Bytes :=
  if path.isEmpty then here
  else
    let stripped := (path.reverse.dropWhile (· == separator)).reverse
    if stripped.isEmpty then [separator] else (split stripped).2

/-- The ending of the last name of a path, from its last dot on. -/
def ending (path : Bytes) : Bytes :=
  let file := (split path).2
  if file.contains 46 then 46 :: (file.reverse.takeWhile (· != 46)).reverse else []

def dropEnding (path : Bytes) : Bytes := Bytes.dropEnding (ending path) path

end HackPlatform.Path
