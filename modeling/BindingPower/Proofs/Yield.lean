import BindingPower.Node

/-! The tokens of a tree from left to right. Where the token of a branch stands among those of its
children depends on the grammar. -/
namespace BindingPower

/-- Where a branch's own token stands: nowhere, for a marker; before its children; or between
them, if they are two. -/
inductive Placement
  | hidden | before | between
  deriving DecidableEq, Repr

def Placement.arrange (t : Token) : Placement → List (List Token) → List Token
  | hidden, parts => parts.flatten
  | between, [left, right] => left ++ t :: right
  | _, parts => t :: parts.flatten

namespace Node

mutual
def yield (place : Token → Placement) : Node → List Token
  | leaf t => [t]
  | branch t children => (place t).arrange t (yields place children)
def yields (place : Token → Placement) : List Node → List (List Token)
  | [] => []
  | n :: rest => n.yield place :: yields place rest
end

variable {place : Token → Placement}

@[simp]
theorem yield_leaf (t : Token) : (leaf t).yield place = [t] := by rw [yield]

@[simp]
theorem yields_append (ns ms : List Node) :
    yields place (ns ++ ms) = yields place ns ++ yields place ms := by
  induction ns with
  | nil => rfl
  | cons n ns ih => simp [yields, ih]

end Node

end BindingPower
