import DigitTrie.Node.Edit
import DigitTrie.Node.Lookup
import DigitTrie.Node.Packed

/-!
A persistent sequence addressed by digits. The element with index `i` is stored at the physical index
`offset + i`, and the digits of the physical index name the slots on the way down from the root. With
an offset there is room before the first element, so both ends can grow and shrink without renumbering
anything. Tries are values: an operation gives a new trie and leaves the old one as it was.
-/
namespace DigitTrie

variable {r : Radix} {α : Type}

/-- A trie over nodes of `r.size` slots. The fields are stored as they are; `Trie.audit` says whether
they fit together. -/
structure Trie (r : Radix) (α : Type) where
  /-- The tree, unless the trie is empty. -/
  root : Option (Node α)
  /-- The physical index of the first element. -/
  offset : Nat
  /-- The number of elements. -/
  length : Nat
  /-- The level of the root. -/
  level : Nat
deriving DecidableEq, Repr

namespace Trie

def empty : Trie r α := ⟨none, 0, 0, 0⟩

instance : Inhabited (Trie r α) := ⟨empty⟩

def unit (x : α) : Trie r α := ⟨some (.unit x), 0, 1, 0⟩

def ofList (xs : List α) : Except Fault (Trie r α) := do
  match ← Node.pack r xs with
  | none => return empty
  | some packed => return ⟨some packed.root, 0, packed.length, packed.level⟩

def isEmpty (t : Trie r α) : Bool := t.length == 0

def findLeaf (t : Trie r α) (index : Nat) : Except Fault (Option (Leaf α)) :=
  match t.root with
  | none => .ok none
  | some root => root.findLeaf r t.level index

def lookup (t : Trie r α) (index : Nat) : Except Fault (Option α) :=
  match t.root with
  | none => .ok none
  | some root => root.lookup r t.level index

def get? (t : Trie r α) (i : Nat) : Except Fault (Option α) :=
  if t.length ≤ i then .ok none
  else do t.lookup (← Word.add t.offset i)

def get (t : Trie r α) (i : Nat) : Except Fault α := do
  match ← t.get? i with
  | none => throw .noElement
  | some x => return x

/-- Applies an edit to the path of a physical index; the empty trie has no path to edit. -/
def edit (t : Trie r α) (index : Nat) (change : Edit α) : Except Fault (Trie r α) :=
  match t.root with
  | none => .ok t
  | some root => do
    return { t with root := some (← root.edit r change t.level index) }

def first? (t : Trie r α) : Except Fault (Option α) := t.get? 0

def last? (t : Trie r α) : Except Fault (Option α) :=
  if t.length = 0 then .ok none else t.get? (t.length - 1)

end Trie

end DigitTrie
