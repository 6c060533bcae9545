/-! How the words of a command line are read. Options stand before, between or after the other
words, up to a double dash; an option with a value takes the rest of its word or the next one. -/
namespace BindingPower.CommandLine

/-- The names of options, and which of the options take a value. -/
structure OptionTable (α : Type) where
  long : List (String × α)
  short : List (Char × α) := []
  takesValue : α → Bool

/-- The words of a command line, sorted: options with their values, in order, and the others. -/
structure Arguments (α : Type) where
  options : List (α × String) := []
  words : List String := []

namespace Arguments

variable {α : Type}

/-- The value of the last of several options of one name. -/
def value? [BEq α] (a : Arguments α) (option : α) : Option String :=
  (a.options.filter (·.1 == option)).getLast?.map (·.2)

/-- The options, each once: in the order in which they first appear, with the values that count. -/
def settings [BEq α] (a : Arguments α) : List (α × String) :=
  (a.options.map (·.1)).eraseDups.filterMap fun option => (a.value? option).map (option, ·)

def has [BEq α] (a : Arguments α) (option : α) : Bool := a.options.any (·.1 == option)

def withOption (a : Arguments α) (option : α) (value : String) : Arguments α :=
  { a with options := (option, value) :: a.options }

def withWord (a : Arguments α) (word : String) : Arguments α := { a with words := word :: a.words }

end Arguments

namespace OptionTable

variable {α : Type}

/-- Whether a word is read as an option: a dash with something after it. -/
def isOption (word : String) : Bool :=
  match word.toList with
  | '-' :: _ :: _ => true
  | _ => false

/-- The option that a word names, with the value that the word gives to it. -/
def named? (t : OptionTable α) (word : String) : Option (α × Option String) :=
  let cs := word.toList
  let name := String.ofList (cs.takeWhile (· != '='))
  let given := if cs.contains '=' then some (String.ofList ((cs.dropWhile (· != '=')).drop 1)) else none
  match t.long.lookup name, cs with
  | some option, _ => some (option, given)
  | none, '-' :: '-' :: _ => none
  | none, '-' :: c :: rest =>
    (t.short.lookup c).map fun option =>
      (option, if rest.isEmpty then none else some (String.ofList rest))
  | none, _ => none

/-- Reads words, the first of which is the value of an option if one is due. -/
def readFrom? (t : OptionTable α) : (due : Option α) → List String → Option (Arguments α)
  | none, [] => some {}
  | some _, [] => none
  | some option, word :: rest => (t.readFrom? none rest).map (·.withOption option word)
  | none, word :: rest =>
    if word = "--" then some { words := rest }
    else if isOption word then
      match t.named? word with
      | none => none
      | some (option, given) =>
        match t.takesValue option, given with
        | true, some value => (t.readFrom? none rest).map (·.withOption option value)
        | true, none => t.readFrom? (some option) rest
        | false, some _ => none
        | false, none => (t.readFrom? none rest).map (·.withOption option "")
    else (t.readFrom? none rest).map (·.withWord word)

/-- Reads all words of a command; nothing if an option is unknown, lacks its value or has one
that it does not take. -/
def read? (t : OptionTable α) (words : List String) : Option (Arguments α) := t.readFrom? none words

/-- Reads the options before the first other word, which keeps all that follows it. -/
def readLeading? (t : OptionTable α) : List String → Option (Arguments α)
  | [] => some {}
  | word :: rest =>
    if word = "--" then some { words := rest }
    else if isOption word then
      match t.named? word with
      | some (option, none) =>
        if t.takesValue option then none
        else (t.readLeading? rest).map (·.withOption option "")
      | _ => none
    else some { words := word :: rest }

end OptionTable

end BindingPower.CommandLine
