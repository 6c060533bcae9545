import BindingPower.Symbol.C
import BindingPower.Symbol.Ebnf

/-! Kinds, on which the rules of a grammar are dispatched: texts, members of enumerations such as the
symbols of a grammar, and whatever else can be told apart. What a kind is printed as does not tell
which kind it is: different kinds may be printed alike, and kinds that are the same differently. -/
namespace BindingPower

/-- What a member of an enumeration may be equal to besides itself: a text, or a thing that has no
text but the one it is printed as. -/
inductive Worth
  | text (text : String)
  | labelled (label : String)
  deriving DecidableEq, Repr

/-- An enumeration that is not one of the two of the bundled grammars. -/
structure Enumeration where
  name : String
  /-- Tells the enumeration from others of its name. -/
  serial : Nat := 0
  /-- What members are equal to, if to anything besides themselves. -/
  worths : List (String × Worth) := []
  /-- How members are printed, if not by both names. -/
  printed : List (String × String) := []
  deriving DecidableEq, Repr

/-- A thing that no bundled grammar has a rule for. Of most only the printed form is known. -/
inductive Thing
  | labelled (label : String)
  | member (enumeration : Enumeration) (name : String)
  deriving DecidableEq, Repr

/-- A member of an enumeration by both their names. -/
def qualified (enumeration name : String) : String := enumeration ++ "." ++ name

def Thing.toText : Thing → String
  | labelled label => label
  | member e name => (e.printed.lookup name).getD (qualified e.name name)

instance : Coe String Thing := ⟨.labelled⟩
instance : Coe Thing String := ⟨Thing.toText⟩

inductive Kind
  | text (text : String)
  | c (symbol : CSymbol)
  | ebnf (symbol : EbnfSymbol)
  /-- What a keyword table answers for a word it does not hold. -/
  | absent
  | other (thing : Thing)
  deriving DecidableEq, Repr

namespace Kind

/-- What kinds are ordered by. Every enumeration puts its name in front of those of its members. -/
def key : Kind → String
  | text s => s
  | c s => qualified "CKind" s.name
  | ebnf s => qualified "EBNFKind" s.name
  | absent => "None"
  | other (.labelled label) => label
  | other (.member e name) => qualified e.name name

def toText : Kind → String
  | other thing => thing.toText
  | k => k.key

/-- The printed form, or for a member of an enumeration its own name. -/
def name : Kind → String
  | c s => s.name
  | ebnf s => s.name
  | other (.member _ name) => name
  | k => k.toText

/-- What a kind is compared as. -/
def identity : Kind → Kind
  | other (.member e name) =>
    match e.worths.lookup name with
    | none => other (.member e name)
    | some (.text s) => text s
    | some (.labelled label) => other (.labelled label)
  | k => k

/-- Kinds that are equal, and share their rules. A symbol is equal to nothing but itself. -/
def same (k l : Kind) : Bool := decide (k.identity = l.identity)

def isSymbol : Kind → Bool
  | c _ | ebnf _ => true
  | _ => false

/-- What is listed for a kind that is the same. -/
def lookup {α : Type 1} (k : Kind) (entries : List (Kind × α)) : Option α :=
  (entries.find? (k.same ·.1)).map (·.2)

variable {k l m : Kind}

theorem same_iff : k.same l = true ↔ k.identity = l.identity := decide_eq_true_iff

@[simp] theorem same_refl (k : Kind) : k.same k = true := same_iff.mpr rfl

theorem same_comm (k l : Kind) : k.same l = l.same k := by
  rw [same, same, decide_eq_decide]
  exact eq_comm

theorem same_left (h : k.same l = true) (m : Kind) : k.same m = l.same m := by
  rw [same, same, same_iff.mp h]

theorem same_right (h : k.same l = true) (m : Kind) : m.same k = m.same l := by
  rw [same, same, same_iff.mp h]

theorem identity_cases (k : Kind) :
    k.identity = k ∨ (∃ s, k.identity = text s) ∨ ∃ label, k.identity = other (.labelled label) := by
  unfold identity
  split
  · split
    · exact .inl rfl
    · exact .inr (.inl ⟨_, rfl⟩)
    · exact .inr (.inr ⟨_, rfl⟩)
  · exact .inl rfl

theorem identity_eq_c_iff {s : CSymbol} : k.identity = c s ↔ k = c s := by
  refine ⟨fun h => ?_, fun h => by rw [h]; rfl⟩
  obtain same | ⟨_, text⟩ | ⟨_, label⟩ := k.identity_cases
  · exact same.symm.trans h
  · exact nomatch text.symm.trans h
  · exact nomatch label.symm.trans h

theorem identity_eq_ebnf_iff {s : EbnfSymbol} : k.identity = ebnf s ↔ k = ebnf s := by
  refine ⟨fun h => ?_, fun h => by rw [h]; rfl⟩
  obtain same | ⟨_, text⟩ | ⟨_, label⟩ := k.identity_cases
  · exact same.symm.trans h
  · exact nomatch text.symm.trans h
  · exact nomatch label.symm.trans h

@[simp] theorem same_c_iff {s : CSymbol} : k.same (c s) = true ↔ k = c s :=
  same_iff.trans identity_eq_c_iff

@[simp] theorem same_ebnf_iff {s : EbnfSymbol} : k.same (ebnf s) = true ↔ k = ebnf s :=
  same_iff.trans identity_eq_ebnf_iff

@[simp] theorem same_text_iff {s t : String} : (text s).same (text t) = true ↔ s = t := by
  rw [same_iff, identity, identity, text.injEq]
  all_goals nofun

theorem eq_of_same_symbol (h : k.same l = true) (symbol : l.isSymbol = true) : k = l := by
  cases l with
  | c s => exact same_c_iff.mp h
  | ebnf s => exact same_ebnf_iff.mp h
  | _ => cases symbol

section lookup
variable {α : Type 1} {entries : List (Kind × α)}

theorem lookup_eq_none_iff : k.lookup entries = none ↔ ∀ e ∈ entries, k.same e.1 = false := by
  simp [lookup]

theorem lookup_snoc (k l : Kind) (entries : List (Kind × α)) (a : α) :
    k.lookup (entries ++ [(l, a)]) = (k.lookup entries).or (if k.same l then some a else none) := by
  rw [lookup, lookup, List.find?_append, Option.map_or]
  cases h : k.same l <;> simp [h]

end lookup

end Kind

instance : Coe CSymbol Kind := ⟨.c⟩
instance : Coe EbnfSymbol Kind := ⟨.ebnf⟩

end BindingPower
