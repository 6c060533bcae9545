import BindingPower.FileTree
import BindingPower.Text.Integer
import BindingPower.Toml.Document

/-! Configuration by TOML files: which file applies, and what it may say. The grammar and the
colour are taken as they stand; the depth and the format are checked. -/
namespace BindingPower

/-- How many calls may be open at once, where nothing else has been set. -/
def callLimit : Int := 1000

/-- What a level of nesting costs: a few calls. -/
def callsPerLevel : Int := 4

/-- The deepest nesting that a limit may allow, at the default limit on calls. -/
def depthCeiling : Int := callLimit / callsPerLevel

/-- A limit is at least one and at most the ceiling. The problem with any other names it, unless it
has too many digits for that. -/
def checkDepth (depth : Int) : Except String Unit :=
  if 1 ≤ depth ∧ depth ≤ depthCeiling then .ok ()
  else if Text.isWritable depth then
    .error ("max_depth must be between 1 and " ++ toString depthCeiling ++ ", got " ++
      toString depth)
  else .error Text.IntegerError.unwritable.message

structure Config where
  grammar : Toml.Value := .string "arithmetic"
  maxDepth : Int := 200
  colour : Toml.Value := .boolean true
  format : String := "tree"
  deriving Repr

inductive ConfigError
  | notFound
  | unreadable (cause : OpenError)
  | malformed
  | integer (cause : Text.IntegerError)
  | notTable (value : Toml.Value)
  | depthUndefined
  | depthInfinite
  | depthNotNumber (value : Toml.Value)
  | depthOutOfRange (path : FilePath) (problem : String)
  | unknownFormat (path : FilePath) (value : Toml.Value)
  deriving Repr

namespace ConfigError

/-- What is wrong with the contents of a file, for the errors that say so. -/
def message? : ConfigError → Option String
  | notFound => some "No prattle.toml found in any parent directory"
  | unreadable .unnameable => some "embedded null byte"
  | malformed => some "the document is not well-formed TOML"
  | integer cause => some cause.message
  | depthUndefined => some "cannot convert float NaN to integer"
  | depthOutOfRange path problem => some (path.toText ++ ": parse." ++ problem)
  | unknownFormat path value => some (path.toText ++
      ": output.format must be one of tree, inline, got " ++ value.shown)
  | _ => none

/-- Whether a value in the file is at fault, in a way that the command line reports. -/
def isInvalid : ConfigError → Bool
  | unreadable .unnameable | malformed | integer _ | depthUndefined | depthOutOfRange .. | unknownFormat .. => true
  | _ => false

end ConfigError

namespace Config

def formats : List String := ["tree", "inline"]

/-- A value as a number of levels: floats lose their fraction and texts are read. -/
def depthOf : Toml.Value → Except ConfigError Int
  | .integer n => .ok n
  | .boolean b => .ok (if b then 1 else 0)
  | .string s => (Text.readInteger s).mapError .integer
  | .float .nan => .error .depthUndefined
  | .float x =>
    match x.truncate? with
    | some n => .ok n
    | none => .error .depthInfinite
  | v => .error (.depthNotNumber v)

/-- The entries of a section that must be a table. -/
def sectionOf : Toml.Value → Except ConfigError Toml.Table
  | .table entries => .ok entries
  | v => .error (.notTable v)

def readParse (path : FilePath) (v : Toml.Value) (c : Config) : Except ConfigError Config := do
  let t ← sectionOf v
  let depth ← depthOf ((t.lookup "max_depth").getD (.integer 200))
  (checkDepth depth).mapError (.depthOutOfRange path)
  return { c with grammar := (t.lookup "grammar").getD (.string "arithmetic"), maxDepth := depth }

def readOutput (path : FilePath) (v : Toml.Value) (c : Config) : Except ConfigError Config := do
  let t ← sectionOf v
  let format := (t.lookup "format").getD (.string "tree")
  match format.text?.filter formats.contains with
  | some name => return { c with colour := (t.lookup "color").getD (.boolean true), format := name }
  | none => throw (if format.canBeShown then .unknownFormat path format else .integer .unwritable)

/-- Reads a section, if there is one. -/
def readSection (read : Toml.Value → Config → Except ConfigError Config) (t : Toml.Table) (name : String)
    (c : Config) : Except ConfigError Config :=
  match t.lookup name with
  | some v => read v c
  | none => .ok c

/-- The configuration of a document, in which the section on parsing is looked at first. -/
def ofTable (path : FilePath) (t : Toml.Table) : Except ConfigError Config := do
  let c ← readSection (readParse path) t "parse" {}
  readSection (readOutput path) t "output" c

def ofText (path : FilePath) (text : String) : Except ConfigError Config :=
  match Toml.read text with
  | .ok t => ofTable path t
  | .error .malformed => .error .malformed
  | .error (.tooLong digits) => .error (.integer (.tooLong digits))

def load (files : FileTree) (current : Location) (path : FilePath) : Except ConfigError Config := do
  let text ← (files.text current path).mapError .unreadable
  ofText path text

def fileName : String := "prattle.toml"

/-- Whether a folder holds a configuration. -/
def standsIn (files : FileTree) (folder : Location) : Bool := files.holds (folder ++ [fileName])

/-- Where the search for a configuration begins: of a file its folder counts. -/
def searchStart (files : FileTree) (start : Location) : Location :=
  if files.isFile start then start.dropLast else start

/-- The nearest configuration at or above a location. -/
def findFrom? (files : FileTree) (start : Location) : Option Location :=
  ((searchStart files start).upward.find? (standsIn files)).map (· ++ [fileName])

/-- Whether the path of a location is longer than one that can be followed, or has a longer name. -/
def isOutOfReach (files : FileTree) (l : Location) : Bool :=
  files.walk [] (.ofLocation l) matches .error .tooLong

def find (files : FileTree) (current : Location) (start : FilePath) : Except ConfigError Location :=
  let l := start.resolve current
  if start.isUnnameable then .error (.unreadable .unnameable)
  else if isOutOfReach files l || isOutOfReach files (searchStart files l ++ [fileName]) then
    .error (.unreadable .tooLong)
  else match findFrom? files l with
    | some l => .ok l
    | none => .error .notFound

/-- The nearest configuration, or the defaults where there is none. -/
def discover (files : FileTree) (current : Location) (start : FilePath) :
    Except ConfigError Config :=
  match (find files current start).bind fun l => load files current (.ofLocation l) with
  | .error .notFound | .error (.unreadable .missing) => .ok {}
  | result => result

/-- Whether a configuration says what the defaults say; a colour of one is as good as true. -/
def isDefault (c : Config) : Bool :=
  (match c.grammar with | .string name => name == "arithmetic" | _ => false) &&
    c.maxDepth == 200 && c.colour.isOne && c.format == "tree"

end Config

end BindingPower
