import BindingPower.Toml.Scalar

/-! TOML documents. Besides the tree of values, reading keeps which tables were opened by a
header and may not be opened again, and which values were written in full and may not grow. -/
namespace BindingPower.Toml

abbrev Path := List String

/-! ### Tables -/

namespace Table

def set (t : Table) (key : String) (v : Value) : Table :=
  t.map fun (k, old) => (k, if k = key then v else old)

/-- Changes the table at a path, which is made where it is missing. Of an array of tables the
last one is meant, if arrays may be entered at all. -/
def update? (arrays : Bool) (change : Table → Option Table) : Path → Table → Option Table
  | [], t => change t
  | key :: path, t =>
    match t.lookup key with
    | none => (update? arrays change path []).map fun u => t ++ [(key, .table u)]
    | some (.table u) => (update? arrays change path u).map fun u => set t key (.table u)
    | some (.array items) =>
      match arrays, items.getLast? with
      | true, some (.table u) =>
        (update? arrays change path u).map fun u =>
          set t key (.array (items.dropLast ++ [.table u]))
      | _, _ => none
    | some _ => none

/-- A new entry; there must be none of its name. -/
def add? (key : String) (v : Value) (t : Table) : Option Table :=
  if (t.lookup key).isSome then none else some (t ++ [(key, v)])

/-- One more table in the array of a name. -/
def append? (key : String) (t : Table) : Option Table :=
  match t.lookup key with
  | none => some (t ++ [(key, .array [.table []])])
  | some (.array items) => some (set t key (.array (items ++ [.table []])))
  | some _ => none

end Table

/-! ### Keys -/

def isKeyChar (c : Char) : Bool := c.isAlphanum || c == '-' || c == '_'

def keyPart (s : List Char) : Except Fault (String × List Char) :=
  match s.takeWhile isKeyChar with
  | [] => do
    let (text, s) ← oneRow s
    return (String.ofList text, s)
  | text => .ok (String.ofList text, s.dropWhile isKeyChar)

/-- The parts of a key, with points between them. Blanks after it are passed over. -/
def keyParts : (room : Nat) → List Char → Except Fault (Path × List Char)
  | 0, _ => malformed
  | room + 1, s => do
    let (part, s) ← keyPart s
    match s.dropWhile isGap with
    | '.' :: s =>
      let (parts, s) ← keyParts room (s.dropWhile isGap)
      return (part :: parts, s)
    | s => return ([part], s)

def key (s : List Char) : Except Fault (Path × List Char) := keyParts s.length.succ s

/-- A comment up to the end of its row. -/
def comment : List Char → Except Fault (List Char)
  | '#' :: s =>
    if (s.takeWhile (· != '\n')).any isForbidden then malformed
    else .ok (s.dropWhile (· != '\n'))
  | s => .ok s

/-- What may stand between the items of an array: blanks, newlines and comments. -/
def filler : (inComment : Bool) → List Char → Except Fault (List Char)
  | _, [] => .ok []
  | true, c :: s =>
    if c = '\n' then filler false s else if isForbidden c then malformed else filler true s
  | false, c :: s =>
    if isGap c || c == '\n' then filler false s
    else if c = '#' then filler true s
    else .ok (c :: s)

/-! ### Values -/

/-- Whether a path or one that it goes through is among those. -/
def coveredBy (paths : List Path) (path : Path) : Bool := paths.any (·.isPrefixOf path)

def Value.isWhole : Value → Bool
  | .array _ | .table _ => true
  | _ => false

/-- A value that holds no others. -/
def plainValue (s : List Char) : Except Fault (Value × List Char) :=
  match s with
  | '"' :: _ | '\'' :: _ => do
    let (text, s) ← string s
    return (.string (String.ofList text), s)
  | 't' :: 'r' :: 'u' :: 'e' :: s => .ok (.boolean true, s)
  | 'f' :: 'a' :: 'l' :: 's' :: 'e' :: s => .ok (.boolean false, s)
  | s =>
    match moment? s, based? s, decimal? s, special? s with
    | some (.ok (m, s)), _, _, _ => .ok (.moment m, s)
    | some (.error e), _, _, _ => .error e
    | none, some found, _, _ => .ok found
    | none, none, some found, _ => found
    | none, none, none, some found => .ok found
    | none, none, none, none => malformed

mutual
def value : (room : Nat) → List Char → Except Fault (Value × List Char)
  | 0, _ => malformed
  | room + 1, s =>
    match s with
    | '[' :: s => do
      let (items, s) ← arrayItems room (← filler false s)
      return (.array items, s)
    | '\x7b' :: s =>
      match s.dropWhile isGap with
      | '\x7d' :: s => .ok (.table [], s)
      | s => do
        let (entries, s) ← inlineEntries room [] [] s
        return (.table entries, s)
    | s => plainValue s

/-- The items of an array up to its bracket; a comma may follow the last. -/
def arrayItems : (room : Nat) → List Char → Except Fault (List Value × List Char)
  | 0, _ => malformed
  | _, ']' :: s => .ok ([], s)
  | room + 1, s => do
    let (v, s) ← value room s
    match ← filler false s with
    | ']' :: s => return ([v], s)
    | ',' :: s =>
      let (rest, s) ← arrayItems room (← filler false s)
      return (v :: rest, s)
    | _ => malformed

/-- The entries of a table in braces, which are all on one row. -/
def inlineEntries : (room : Nat) → (frozen : List Path) → Table → List Char → Except Fault (Table × List Char)
  | 0, _, _, _ => malformed
  | room + 1, frozen, t, s => do
    let (path, v, s) ← entry room s
    if coveredBy frozen path then malformed
    else
      match Table.update? false (Table.add? (path.getLast?.getD "") v) path.dropLast t with
      | none => malformed
      | some t =>
        match s.dropWhile isGap with
        | '\x7d' :: s => return (t, s)
        | ',' :: s =>
          let frozen := if v.isWhole then path :: frozen else frozen
          inlineEntries room frozen t (s.dropWhile isGap)
        | _ => malformed

/-- A key, an equals sign and a value. -/
def entry : (room : Nat) → List Char → Except Fault (Path × Value × List Char)
  | 0, _ => malformed
  | room + 1, s => do
    let (path, s) ← key s
    match s with
    | '=' :: s =>
      let (v, s) ← value room (s.dropWhile isGap)
      return (path, v, s)
    | _ => malformed
end

/-! ### Statements -/

structure Document where
  root : Table := []
  header : Path := []
  /-- Tables that a header or a dotted key has made, which no header may open again. -/
  opened : List Path := []
  /-- Tables that dotted keys have made since the last header. -/
  pending : List Path := []
  /-- Arrays and tables that were written in full. -/
  frozen : List Path := []

namespace Document

/-- The next header makes the tables of dotted keys final. -/
def settle (d : Document) : Document :=
  { d with opened := d.pending ++ d.opened, pending := [] }

/-- Opens a table by its header. -/
def openTable? (d : Document) (path : Path) : Option Document :=
  if d.opened.contains path || coveredBy d.frozen path then none
  else (Table.update? true some path d.root).map fun root =>
    { d with root, header := path, opened := path :: d.opened }

/-- Opens one more table of an array. What was made below the array's path is free again. -/
def openItem? (d : Document) (path : Path) : Option Document :=
  if coveredBy d.frozen path then none
  else
    let outside := fun (p : Path) => !path.isPrefixOf p
    (Table.update? true (Table.append? (path.getLast?.getD "")) path.dropLast d.root).map fun root =>
      { d with root, header := path, opened := path :: d.opened.filter outside,
               frozen := d.frozen.filter outside }

/-- The tables that a dotted key goes through, below its header. -/
def passed (header path : Path) : List Path :=
  (List.range (path.length - 1)).map fun i => header ++ path.take (i + 1)

/-- Adds an entry below the current header. -/
def addEntry? (d : Document) (path : Path) (v : Value) : Option Document :=
  let parents := passed d.header path
  if parents.any d.opened.contains || coveredBy d.frozen (d.header ++ path.dropLast) then none
  else
    (Table.update? true (Table.add? (path.getLast?.getD "") v) (d.header ++ path.dropLast)
      d.root).map fun root =>
      { d with root, pending := parents ++ d.pending,
               frozen := if v.isWhole then (d.header ++ path) :: d.frozen else d.frozen }

private def orMalformed : Option Document → Except Fault Document
  | some d => .ok d
  | none => malformed

/-- One statement of a row, up to what follows it. -/
def statement (d : Document) (s : List Char) : Except Fault (Document × List Char) :=
  match s with
  | '[' :: '[' :: s => do
    let (path, s) ← key (s.dropWhile isGap)
    let d ← orMalformed (d.settle.openItem? path)
    match s with
    | ']' :: ']' :: s => return (d, s)
    | _ => malformed
  | '[' :: s => do
    let (path, s) ← key (s.dropWhile isGap)
    let d ← orMalformed (d.settle.openTable? path)
    match s with
    | ']' :: s => return (d, s)
    | _ => malformed
  | '#' :: _ => .ok (d, s)
  | s => do
    let (path, v, s) ← entry (2 * s.length + 3) s
    return (← orMalformed (d.addEntry? path v), s)

/-- The statements of the rows that are left. -/
def rows (d : Document) : (room : Nat) → List Char → Except Fault Document
  | 0, _ => malformed
  | room + 1, s =>
    match s.dropWhile isGap with
    | [] => .ok d
    | '\n' :: s => d.rows room s
    | s => do
      let (d, s) ← d.statement s
      match ← comment (s.dropWhile isGap) with
      | [] => return d
      | '\n' :: s => d.rows room s
      | _ => malformed

end Document

/-- Carriage returns before newlines are no part of a document. -/
def unixNewlines : List Char → List Char
  | '\r' :: '\n' :: s => '\n' :: unixNewlines s
  | c :: s => c :: unixNewlines s
  | [] => []

def read (text : String) : Except Fault Table := do
  let s := unixNewlines text.toList
  return (← ({} : Document).rows s.length.succ s).root

end BindingPower.Toml
