import BindingPower.CommandLine.Arguments
import BindingPower.Config
import BindingPower.Grammar.Bundled
import BindingPower.Text.Ansi

/-! The command line: parsing a text or a file with a bundled grammar, and listing the grammars.
A run is a function of the words given and of what there is around it. Only a parse may use up the stack,
which is taken to suffice for everything else: for the printing of a tree too, however deep it is. -/
namespace BindingPower.CommandLine

/-- What a run finds around it. -/
structure Surroundings where
  files : FileTree
  current : Location
  /-- Whether the output goes to a terminal, the only place where colours are kept. -/
  terminal : Bool := false
  /-- Whether the parse of a text by the grammar of a name, with a limit, uses up the stack; and what it has
  traced by then. -/
  overflow : (grammar source : String) → (depth : Int) → Option (List String) := fun _ _ _ => none

/-- A failure that the command does not report but ends in. -/
inductive Crash
  | config (e : ConfigError)
  | notText (grammar : Toml.Value)
  | integer (cause : Text.IntegerError)
  | unnameable (path : String)
  | defect (d : Defect)
  deriving Repr

inductive Ending
  | exit (code : Nat)
  | misused
  | crash (cause : Crash)
  deriving Repr

structure Run where
  ending : Ending
  out : String := ""
  err : String := ""
  deriving Repr

inductive GroupOption
  | version | help
  deriving DecidableEq, Repr

inductive ParseOption
  | grammar | file | maxDepth | format | inRow | noColour | trace | config | help
  deriving DecidableEq, Repr

inductive ListOption
  | help
  deriving DecidableEq, Repr

def groupOptions : OptionTable GroupOption where
  long := [("--version", .version), ("--help", .help)]
  takesValue _ := false

def parseOptions : OptionTable ParseOption where
  long := [("--grammar", .grammar), ("--file", .file), ("--max-depth", .maxDepth),
    ("--format", .format), ("--inline", .inRow), ("--no-color", .noColour), ("--trace", .trace),
    ("--config", .config), ("--help", .help)]
  short := [('g', .grammar), ('f', .file)]
  takesValue
    | .grammar | .file | .maxDepth | .format | .config => true
    | _ => false

def listOptions : OptionTable ListOption where
  long := [("--help", .help)]
  takesValue _ := false

/-- A request to parse, as the words of the command give it. -/
structure ParseRequest where
  text : Option String := none
  grammar : Option String := none
  file : Option FilePath := none
  maxDepth : Option Int := none
  format : Option String := none
  inRow : Bool := false
  noColour : Bool := false
  trace : Bool := false
  config : Option FilePath := none

namespace Surroundings

/-- One line of output. -/
def echo (s : Surroundings) (text : String) : String :=
  (if s.terminal then text else Text.stripColours text) ++ "\n"

/-- Ends with a message. -/
def failed (s : Surroundings) (message : String) : Run :=
  { ending := .exit 1, err := s.echo message }

/-- A path that must name a file, with nothing after its name. A path that nothing can have is no
misuse of the command but the end of the run. -/
def existingFile (s : Surroundings) (text : String) : Except Ending FilePath :=
  let path := FilePath.ofText text
  if path.isUnnameable then .error (.crash (.unnameable text))
  else if FilePath.endsInName text && !FilePath.isTooLong text && (s.files.text s.current path).isOk
    then .ok path
  else .error .misused

/-- A request with one more option, if the value is of the option's kind. -/
def withOption (s : Surroundings) (r : ParseRequest) :
    ParseOption × String → Except Ending ParseRequest
  | (.grammar, name) => .ok { r with grammar := some name }
  | (.file, path) => (s.existingFile path).map fun path => { r with file := some path }
  | (.config, path) => (s.existingFile path).map fun path => { r with config := some path }
  | (.maxDepth, text) =>
    match Text.readInteger text with
    | .ok depth => .ok { r with maxDepth := some depth }
    | .error _ => .error .misused
  | (.format, name) =>
    if Config.formats.contains name then .ok { r with format := some name } else .error .misused
  | (.inRow, _) => .ok { r with inRow := true }
  | (.noColour, _) => .ok { r with noColour := true }
  | (.trace, _) => .ok { r with trace := true }
  | (.help, _) => .ok r

/-- The request that the words make. The first option with a value that cannot be used decides how
the run ends; only then is a second word too many. -/
def request (s : Surroundings) (a : Arguments ParseOption) : Except Ending ParseRequest := do
  let r ← a.settings.foldlM s.withOption { text := a.words.head? }
  if 1 < a.words.length then throw .misused
  return r

def configOf (s : Surroundings) (r : ParseRequest) : Except ConfigError Config :=
  match r.config with
  | some path => Config.load s.files s.current path
  | none => Config.discover s.files s.current (.ofText ".")

/-- Every way to end a row in a file is read as a newline. -/
def newlines : List Char → List Char
  | '\r' :: '\n' :: s => '\n' :: newlines s
  | '\r' :: s => '\n' :: newlines s
  | c :: s => c :: newlines s
  | [] => []

/-- The text to parse: that of the file, if there is one, or else the word. -/
def source? (s : Surroundings) (r : ParseRequest) : Option String :=
  match r.file with
  | some path =>
    ((s.files.text s.current path).toOption).map fun text => String.ofList (newlines text.toList)
  | none => r.text

/-- The grammar asked for, or that of the configuration: its name, or the run that ends here. -/
def grammarName (s : Surroundings) (r : ParseRequest) (c : Config) : Except Run String :=
  match r.grammar, c.grammar with
  | some name, .string configured => known (if name = "" then configured else name)
  | none, .string configured => known configured
  | some name, v => if name = "" then unnamed v else known name
  | none, v => unnamed v
where
  known (name : String) : Except Run String :=
    if (Grammar.find? name).isSome then .ok name
    else .error (s.failed ("error: " ++ Grammar.unknownMessage (Text.quoted name)))
  unnamed (v : Toml.Value) : Except Run String :=
    match v with
    | .array _ | .table _ => .error { ending := .crash (.notText v) }
    | v =>
      if v.canBeShown then .error (s.failed ("error: " ++ Grammar.unknownMessage v.shown))
      else .error { ending := .crash (.integer .unwritable) }

def layoutOf (r : ParseRequest) (c : Config) : String :=
  if r.inRow then "inline" else r.format.getD c.format

/-- The rows of a tree in a layout. -/
def shown (layout : String) (n : Node) : String :=
  if layout = "inline" then n.toText else n.pretty 0

/-- The lines of a trace, if it is asked for. -/
def tracing (r : ParseRequest) (trace : List String) : String :=
  if r.trace then String.join (trace.map fun line => "prattle.parser: " ++ line ++ "\n") else ""

/-- Ends with the diagnostic of an error. -/
def rejected (s : Surroundings) (r : ParseRequest) (c : Config) (source : String) (trace : List String)
    (e : ParseError) : Run :=
  let colours := c.colour.isTrue && !r.noColour
  { ending := .exit 1
    err := tracing r trace ++ s.echo (e.diagnostic.render colours (some source)) }

/-- Parses a text and prints its trees, or the diagnostic of what went wrong. A parse that uses up the stack
is too deep. -/
def parseText (s : Surroundings) (r : ParseRequest) (c : Config) (g : Grammar) (source : String)
    (depth : Int) : Run :=
  match s.overflow g.name source depth with
  | some trace => s.rejected r c source trace (.tooDeep depth)
  | none =>
    let (result, progress) := g.run source (some depth)
    match result with
    | .ok nodes =>
      { ending := .exit 0, err := tracing r progress.trace
        out := String.join (nodes.map fun n => s.echo (shown (layoutOf r c) n)) }
    | .error (.error e) => s.rejected r c source progress.trace e
    | .error (.defect d) => { ending := .crash (.defect d), err := tracing r progress.trace }

/-- Parses with a configuration: a text must be given, the grammar known and the depth allowed. -/
def parseWith (s : Surroundings) (r : ParseRequest) (c : Config) : Run :=
  match s.source? r with
  | none => s.failed "error: nothing to parse; pass TEXT or --file"
  | some source =>
    match s.grammarName r c with
    | .error run => run
    | .ok name =>
      let depth := r.maxDepth.getD c.maxDepth
      match checkDepth depth, Grammar.find? name with
      | .error problem, _ => s.failed ("error: " ++ problem)
      | .ok (), some g => s.parseText r c g source depth
      | .ok (), none => { ending := .misused }

def parse (s : Surroundings) (r : ParseRequest) : Run :=
  match s.configOf r with
  | .ok c => s.parseWith r c
  | .error e =>
    if e.isInvalid then s.failed ("error: " ++ e.message?.getD "")
    else { ending := .crash (.config e) }

/-- Two columns: the names, all as wide as the longest, and the descriptions. -/
def listGrammars (s : Surroundings) : Run :=
  let width := (Grammar.bundled.map (·.name.length)).foldl max 0
  { ending := .exit 0
    out := String.join (Grammar.bundled.map fun g =>
      s.echo (g.name ++ String.ofList (List.replicate (width - g.name.length) ' ') ++ "  " ++
        g.description)) }

def version : String := "prattle, version 0.3.0"

def usage : String := "Usage: prattle [--version] (parse [OPTIONS] [TEXT] | grammars)"

/-- Carries out the command that the first word names. -/
def command (s : Surroundings) (name : String) (words : List String) : Run :=
  match name with
  | "parse" =>
    match parseOptions.read? words with
    | none => { ending := .misused }
    | some a =>
      if a.has .help then { ending := .exit 0, out := s.echo usage }
      else match s.request a with
        | .error ending => { ending }
        | .ok r => s.parse r
  | "grammars" =>
    match listOptions.read? words with
    | none => { ending := .misused }
    | some a =>
      if a.has .help then { ending := .exit 0, out := s.echo usage }
      else if a.words.isEmpty then s.listGrammars
      else { ending := .misused }
  | _ => { ending := .misused }

/-- A run of the program on the words after its name. -/
def run (s : Surroundings) (words : List String) : Run :=
  match groupOptions.readLeading? words with
  | none => { ending := .misused }
  | some a =>
    match a.options, a.words with
    | (.version, _) :: _, _ => { ending := .exit 0, out := s.echo version }
    | (.help, _) :: _, _ => { ending := .exit 0, out := s.echo usage }
    | [], [] => { ending := .misused }
    | [], name :: rest => s.command name rest

end Surroundings

end BindingPower.CommandLine
