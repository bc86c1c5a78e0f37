import HackPlatform.Toml.Document

/-!
# The keys that a document has named

No key may be given a value twice, and no table may be opened twice. What has been named so far is kept as a list of paths.
A table that came to be because a dotted key passes through it can be extended by further dotted keys, but only until the
next header.
-/

namespace HackPlatform.Toml

/-- What a path stands for. -/
inductive Named where
  /-- A value. -/
  | value
  /-- A table. It is closed once a header has opened it; it is dotted while only dotted keys have. -/
  | table (closed dotted : Bool)
  /-- A list of tables. -/
  | list
deriving DecidableEq

/-- The paths that a document has named so far, and the path of the table that is open. -/
structure KeyTable where
  named : List (Key × Named) := []
  current : Key := []

namespace KeyTable

/-- What a path stands for. -/
def find? (t : KeyTable) (path : Key) : Option Named := t.named.lookup path

/-- Names a path that has not been named. -/
def add (t : KeyTable) (path : Key) (n : Named) : KeyTable := { t with named := (path, n) :: t.named }

/-- Changes what a path stands for. -/
def put (t : KeyTable) (path : Key) (n : Named) : KeyTable :=
  { t with named := (path, n) :: t.named.filter (·.1 != path) }

/-- Is the first path a proper part of the second? -/
def isAbove (path inner : Key) : Bool := path.length < inner.length && path.isPrefixOf inner

/-- Closes the tables inside of the current one that dotted keys have made. -/
def closeDotted (t : KeyTable) : KeyTable :=
  { t with named := t.named.map fun (path, n) =>
      match n with
      | .table _ true => (path, if isAbove t.current path then .table true false else n)
      | _ => (path, n) }

/-- Forgets all that is inside of a path. -/
def clear (t : KeyTable) (path : Key) : KeyTable :=
  { t with named := t.named.filter fun (p, _) => !isAbove path p }

/-- Walks to the table that is to hold the last name of a header. Tables on the way come to be if they have not been
named. -/
def descend? (t : KeyTable) (path : Key) : Key → Option (KeyTable × Key)
  | [] => some (t, path)
  | [name] => some (t, path ++ [name])
  | name :: rest =>
    let next := path ++ [name]
    match t.find? next with
    | none => (t.add next (.table false false)).descend? next rest
    | some .value => none
    | some _ => t.descend? next rest

/-- Opens a table by its header. -/
def openTable? (t : KeyTable) (key : Key) : Option KeyTable :=
  match t.closeDotted.descend? [] key with
  | none => none
  | some (t, path) =>
    match t.find? path with
    | none => some { t.add path (.table true false) with current := path }
    -- a table that came to be on the way to another one may still be opened, once
    | some (.table false dotted) => some { t.put path (.table true dotted) with current := path }
    | some _ => none

/-- Opens the next table of a list by its header. -/
def openListed? (t : KeyTable) (key : Key) : Option KeyTable :=
  match t.closeDotted.descend? [] key with
  | none => none
  | some (t, path) =>
    match t.find? path with
    | none => some { t.add path .list with current := path }
    | some .list => some { t.clear path with current := path }
    | some _ => none

/-- Names the key of a pair, from a path inwards. -/
def assign? (t : KeyTable) (path : Key) : Key → Option KeyTable
  | [] => some t
  | [name] =>
    let next := path ++ [name]
    match t.find? next with
    | none => some (t.add next .value)
    | some _ => none
  | name :: rest =>
    let next := path ++ [name]
    match t.find? next with
    | none => (t.add next (.table false true)).assign? next rest
    | some (.table false _) => t.assign? next rest
    | some _ => none

/-- Names the keys of a table inside of braces, which knows of no other keys. -/
def ofKeys? (keys : List Key) : Option KeyTable :=
  keys.foldlM (fun (t : KeyTable) key => t.assign? [] key) {}

end KeyTable

mutual

/-- Does no table inside of the value name a key twice? -/
def Value.isConsistent : Value → Bool
  | .array items => areConsistent items
  | .table pairs => (KeyTable.ofKeys? (pairs.map Prod.fst)).isSome && pairsAreConsistent pairs
  | _ => true

/-- Does no table inside of the values name a key twice? -/
def areConsistent : List Value → Bool
  | [] => true
  | v :: rest => v.isConsistent && areConsistent rest

/-- Does no table inside of the values of the pairs name a key twice? -/
def pairsAreConsistent : List (Key × Value) → Bool
  | [] => true
  | (_, v) :: rest => v.isConsistent && pairsAreConsistent rest

end

/-- Names what an expression names, unless that has a meaning already. -/
def KeyTable.record? (t : KeyTable) : Expression → Option KeyTable
  | .pair key value => if value.isConsistent then t.assign? t.current key else none
  | .table key => t.openTable? key
  | .listedTable key => t.openListed? key

end HackPlatform.Toml
