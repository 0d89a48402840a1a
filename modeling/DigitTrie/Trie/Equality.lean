import DigitTrie.Cursor
import DigitTrie.Element

/-!
Equality and hashing. Both look at the elements only, not at how they happen to be laid out in the
tree, so two tries with the same elements are equal and feed the same values to a hasher.
-/
namespace DigitTrie

variable {r : Radix} {α : Type}

/-- Reads two cursors in step, for at most `count` elements of the first, and tells whether they give
the same elements and end together. Reading stops at the first difference. -/
def Cursor.agree [DecidableEq α] (count : Nat) (a b : Cursor r α) : Except Fault Bool :=
  match count with
  | 0 => do return (← b.next).1.isNone
  | count + 1 => do
    match ← a.next with
    | (none, _) => return (← b.next).1.isNone
    | (some x, a) =>
      match ← b.next with
      | (none, _) => return false
      | (some y, b) => if x = y then a.agree count b else return false

namespace Trie

def equal [DecidableEq α] (t u : Trie r α) : Except Fault Bool :=
  if t.length = u.length then t.cursor.agree t.length u.cursor else .ok false

def differ [DecidableEq α] (t u : Trie r α) : Except Fault Bool := return !(← t.equal u)

def hashInputs [Element α] (t : Trie r α) : Except Fault (List HashInput) := do
  return .number t.length :: (← t.elements).flatMap Element.hashInputs

end Trie

end DigitTrie
