/-! Files and folders, and the paths by which they are named. Nothing in a tree is a link, so a
path can be followed or resolved by its parts alone. Names have at most 255 bytes, none of them
zero, and paths at most 4095. -/
namespace BindingPower

/-- The names from the root of all files down to one of them. -/
abbrev Location := List String

def Location.toText (l : Location) : String := "/" ++ "/".intercalate l

structure FileTree where
  files : List (Location × String) := []
  folders : List Location := []

/-- A path as it is written, without empty parts and single points. -/
structure FilePath where
  root : String := ""
  parts : List String
  deriving DecidableEq, Repr

namespace FilePath

/-- The pieces of a path between its slashes, the empty ones too. -/
def pieces : List Char → List (List Char)
  | [] => [[]]
  | c :: s =>
    if c = '/' then [] :: pieces s
    else match pieces s with
      | piece :: rest => (c :: piece) :: rest
      | [] => [[c]]

/-- Two slashes in front are kept, any other number of them counts as one. -/
def ofText (text : String) : FilePath :=
  let slashes := (text.toList.takeWhile (· == '/')).length
  let root := if slashes = 0 then "" else if slashes = 2 then "//" else "/"
  ⟨root, ((pieces text.toList).filter fun part => part != [] && part != ['.']).map String.ofList⟩

/-- Whether a path ends in a name, with no slash or single point after it. -/
def endsInName (text : String) : Bool :=
  match (pieces text.toList).getLast? with
  | none | some [] | some ['.'] => false
  | some _ => true

/-- Whether a name on the path holds a character that no name may. -/
def isUnnameable (p : FilePath) : Bool := p.parts.any (·.toList.contains '\x00')

/-- Whether a path has more bytes than one that can be followed. -/
def isTooLong (text : String) : Bool := 4095 < text.utf8ByteSize

def ofLocation (l : Location) : FilePath := ⟨"/", l⟩

def toText (p : FilePath) : String :=
  if p.root = "" ∧ p.parts = [] then "." else p.root ++ "/".intercalate p.parts

/-- Where the path starts. -/
def base (p : FilePath) (current : Location) : Location := if p.root = "" then current else []

/-- One step along a path; two points lead back up. -/
def step (here : Location) (part : String) : Location :=
  if part = ".." then here.dropLast else here ++ [part]

/-- The location that a path names, whether or not there is something. -/
def resolve (p : FilePath) (current : Location) : Location := p.parts.foldl step (p.base current)

end FilePath

inductive OpenError
  | missing
  | notFolder
  | folder
  | tooLong
  | unnameable
  deriving DecidableEq, Repr

namespace FileTree

def isFile (t : FileTree) (l : Location) : Bool := (t.files.lookup l).isSome

/-- The root is a folder, and so is whatever has something below it. -/
def isFolder (t : FileTree) (l : Location) : Bool :=
  l.isEmpty || t.folders.any l.isPrefixOf ||
    t.files.any fun (file, _) => l.isPrefixOf file && l.length < file.length

def holds (t : FileTree) (l : Location) : Bool := t.isFile l || t.isFolder l

/-- Follows the parts of a path, each from a folder. -/
def follow (t : FileTree) : Location → List String → Except OpenError Location
  | here, [] => if t.holds here then .ok here else .error .missing
  | here, part :: rest =>
    if t.isFolder here then
      if 255 < part.utf8ByteSize then .error .tooLong
      else t.follow (FilePath.step here part) rest
    else if t.isFile here then .error .notFolder
    else .error .missing

/-- Follows a path, if it is one that something can have. -/
def walk (t : FileTree) (current : Location) (p : FilePath) : Except OpenError Location :=
  if p.isUnnameable then .error .unnameable
  else if FilePath.isTooLong p.toText then .error .tooLong
  else t.follow (p.base current) p.parts

/-- The text of the file that a path names. -/
def text (t : FileTree) (current : Location) (p : FilePath) : Except OpenError String := do
  let l ← t.walk current p
  match t.files.lookup l with
  | some text => return text
  | none => throw .folder

end FileTree

/-- A location and all above it, the nearest first. -/
def Location.upward (l : Location) : List Location :=
  (List.range (l.length + 1)).map fun i => l.take (l.length - i)

end BindingPower
