import DigitTrie.Node.Basic

/-!
Walking down from a node to the leaf that a physical index belongs to. The digits of the index pick
one child on each level; a digit whose slot is not in use ends the walk with nothing found.
-/
namespace DigitTrie.Node

variable {α : Type}

def findLeaf (r : Radix) (node : Node α) (level index : Nat) : Except Fault (Option (Leaf α)) :=
  match node with
  | .leaf start slots =>
    if level = 0 then .ok (some ⟨start, slots⟩) else .error (.leafInTheWay level)
  | .interior start children => do
    match Slots.at? children start (← r.digit index level) with
    | none => return none
    | some child =>
      if r.bits ≤ level then child.findLeaf r (level - r.bits) index else return none
termination_by level
decreasing_by have := r.bits_pos; omega

def lookup (r : Radix) (node : Node α) (level index : Nat) : Except Fault (Option α) := do
  match ← node.findLeaf r level index with
  | none => return none
  | some found => return found.at? (r.lastDigit index)

end DigitTrie.Node
