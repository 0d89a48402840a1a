import DigitTrie.Trie.Basic

/-!
Left and right exchanged. Reflecting a trie reverses the slots of every node and the room before and
after the window, so what is true of one end of a trie can be said of the other.
-/
namespace DigitTrie

variable {r : Radix} {α : Type}

namespace Node

mutual

def reflect (r : Radix) : Node α → Node α
  | .leaf start slots => .leaf (r.size - start - slots.length) slots.reverse
  | .interior start children => .interior (r.size - start - children.length) (reflectForest r children)

def reflectForest (r : Radix) : List (Node α) → List (Node α)
  | [] => []
  | child :: rest => reflectForest r rest ++ [child.reflect r]

end

theorem reflectForest_eq_map (r : Radix) (children : List (Node α)) :
    reflectForest r children = (children.map (reflect r)).reverse := by
  induction children with
  | nil => simp [reflectForest]
  | cons child rest ih => simp [reflectForest, ih]

theorem forestToList_append (xs ys : List (Node α)) :
    forestToList (xs ++ ys) = forestToList xs ++ forestToList ys := by
  simp [forestToList_eq_flatMap]

mutual

theorem toList_reflect (r : Radix) (node : Node α) :
    (node.reflect r).toList = node.toList.reverse := by
  match node with
  | .leaf start slots => simp [reflect, toList]
  | .interior start children =>
    simp only [reflect, toList]
    exact forestToList_reflectForest r children

theorem forestToList_reflectForest (r : Radix) (children : List (Node α)) :
    forestToList (reflectForest r children) = (forestToList children).reverse := by
  match children with
  | [] => simp [reflectForest, forestToList]
  | child :: rest =>
    simp only [reflectForest, forestToList, forestToList_append, List.reverse_append,
      List.append_nil]
    rw [toList_reflect r child, forestToList_reflectForest r rest]

end

end Node

/-- The trie with left and right exchanged: the room before the window becomes the room after it. -/
def Trie.reflect (t : Trie r α) : Trie r α :=
  match t.root with
  | none => t
  | some root =>
    { t with
      root := some (root.reflect r)
      offset := r.size <<< t.level - t.offset - t.length }

end DigitTrie
