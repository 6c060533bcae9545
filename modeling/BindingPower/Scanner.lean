import BindingPower.Lexer
import BindingPower.Pattern

/-! Scanning: the text is cut into lexemes by ordered rules. At each place the first rule whose
pattern matches decides; if none does, or that one takes nothing, the scan stops there. -/
namespace BindingPower

/-- What becomes of the text that a rule matches. -/
inductive Labelling
  | skip
  | kind (kind : Kind)
  | byText (kindOf : String → Kind)

structure ScanRule where
  pattern : Pattern
  labelling : Labelling

namespace ScanRule

def token? (rule : ScanRule) (value : String) (offset : Nat) : Option Token :=
  match rule.labelling with
  | .skip => none
  | .kind kind => some (.lexeme kind value (some offset))
  | .byText kindOf => some (.lexeme (kindOf value) value (some offset))

/-- The first rule that matches the beginning of a text, with how much its match takes. -/
def first? (rules : List ScanRule) (s : List Char) : Option (ScanRule × Nat) :=
  rules.findSome? fun rule => (rule.pattern.width? s).map (rule, ·)

def scanFrom (rules : List ScanRule) : (room offset : Nat) → List Char → Scan
  | _, _, [] => ⟨[], none⟩
  | 0, _, _ :: _ => ⟨[], none⟩
  | room + 1, offset, c :: s =>
    let stopped : Scan := ⟨[], some (.unexpectedCharacter (String.singleton c) offset)⟩
    match first? rules (c :: s) with
    | none | some (_, 0) => stopped
    | some (rule, width) =>
      let after := scanFrom rules room (offset + width) ((c :: s).drop width)
      let value := String.ofList ((c :: s).take width)
      { after with tokens := (rule.token? value offset).toList ++ after.tokens }

/-- The lexemes of a text. Each takes a character or more, so the length bounds their number. -/
def scan (rules : List ScanRule) (text : String) : Scan :=
  scanFrom rules text.toList.length 0 text.toList

end ScanRule

end BindingPower
