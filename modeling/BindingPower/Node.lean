import BindingPower.Token

/-! Parse trees. A leaf holds one token; a branch holds its operator, keyword or marker and
any number of children. -/
namespace BindingPower

inductive Node
  | leaf (token : Token)
  | branch (token : Token) (children : List Node)
  deriving Repr

namespace Node

mutual
private def decEq : (n m : Node) → Decidable (n = m)
  | leaf t, leaf u => decidable_of_iff (t = u) (by simp)
  | leaf _, branch _ _ => isFalse nofun
  | branch _ _, leaf _ => isFalse nofun
  | branch t children, branch u others =>
    have := decEqAll children others
    decidable_of_iff (t = u ∧ children = others) (by simp)
private def decEqAll : (ns ms : List Node) → Decidable (ns = ms)
  | [], [] => isTrue rfl
  | [], _ :: _ => isFalse nofun
  | _ :: _, [] => isFalse nofun
  | n :: ns, m :: ms =>
    have := decEq n m
    have := decEqAll ns ms
    decidable_of_iff (n = m ∧ ns = ms) (by simp)
end

instance : DecidableEq Node := decEq

def token : Node → Token
  | leaf t => t
  | branch t _ => t

def children? : Node → Option (List Node)
  | leaf _ => none
  | branch _ children => some children

/-- A branch with one more child at the end. -/
def withChild? (n child : Node) : Option Node :=
  match n with
  | leaf _ => none
  | branch t children => some (branch t (children ++ [child]))

mutual
/-- The node and all below it, each before its children. -/
def walk : Node → List Node
  | leaf t => [leaf t]
  | branch t children => branch t children :: walkAll children
def walkAll : List Node → List Node
  | [] => []
  | n :: rest => n.walk ++ walkAll rest
end

mutual
/-- The tree without the places of its tokens. -/
def bare : Node → Node
  | leaf t => leaf t.bare
  | branch t children => branch t.bare (bareAll children)
def bareAll : List Node → List Node
  | [] => []
  | n :: rest => n.bare :: bareAll rest
end

mutual
def same : Node → Node → Bool
  | leaf t, leaf u => t.same u
  | branch t children, branch u others => t.same u && sameAll children others
  | _, _ => false
def sameAll : List Node → List Node → Bool
  | [], [] => true
  | n :: rest, m :: others => n.same m && sameAll rest others
  | _, _ => false
end

mutual
def toText : Node → String
  | leaf t => "Simple(" ++ t.toText ++ ")"
  | branch t children =>
    "Composite(token: " ++ t.toText ++ ", children: [" ++ ", ".intercalate (textAll children) ++ "])"
def textAll : List Node → List String
  | [] => []
  | n :: rest => n.toText :: textAll rest
end

/-- The row of one token; a depth below zero indents by nothing. -/
def row (depth : Int) (t : Token) : String :=
  String.ofList (List.replicate (2 * depth.toNat) ' ') ++ t.toText

/-- Whether rows can be indented by a depth, which must be a machine word, and so must the number
of blanks. -/
def canIndent (depth : Int) : Bool :=
  -9223372036854775808 ≤ depth && 2 * depth ≤ 9223372036854775807

mutual
/-- One row a node, two blanks deeper at each level. -/
def rows (depth : Int) : Node → List String
  | leaf t => [row depth t]
  | branch t children => row depth t :: rowsAll (depth + 1) children
def rowsAll (depth : Int) : List Node → List String
  | [] => []
  | n :: rest => n.rows depth ++ rowsAll depth rest
end

def pretty (n : Node) (depth : Int) : String := "\n".intercalate (n.rows depth)

end Node

end BindingPower
