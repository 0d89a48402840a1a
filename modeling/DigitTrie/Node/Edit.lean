import DigitTrie.Node.Basic

/-!
Changing a tree along one path. Every change of a trie is a walk from the root to the leaf of a single
physical index. An `Edit` says how the nodes on the way are rebuilt and what is done to the leaf; all
nodes off the path stay as they are.

| edit          | interior nodes                     | leaf                                |
|---------------|------------------------------------|-------------------------------------|
| `replace`     | unchanged                          | another element in the same slot    |
| `pushBack`    | a new last child where one is due  | a new last element                  |
| `pushFront`   | a new first child where one is due | a new first element                 |
| `keepFrom`    | the children from the path on      | the elements from the index on      |
| `keepThrough` | the children up to the path        | the elements up to the index        |
-/
namespace DigitTrie

variable {α : Type}

inductive Edit (α : Type) where
  | replace (x : α)
  | pushBack (x : α)
  | pushFront (x : α)
  | keepFrom
  | keepThrough
deriving DecidableEq, Repr

/-- An interior node rebuilt for the walk, and the slot of the child where the walk goes on. -/
structure Opened (α : Type) where
  start : Nat
  children : List (Node α)
  slot : Nat
deriving DecidableEq, Repr

namespace Edit

def openNode (r : Radix) (edit : Edit α) (start : Nat) (children : List (Node α))
    (digit level : Nat) : Except Fault (Opened α) :=
  match edit with
  | .replace _ => do
    return ⟨start, children, ← Word.sub digit start⟩
  | .pushBack _ => do
    let start := if children.isEmpty then digit else start
    let slot ← Word.sub digit start
    ensure (slot ≤ children.length) .detachedChild
    if slot = children.length then
      return ⟨start, ← Slots.pushBack r children (← Node.emptyBelow r level), slot⟩
    else
      return ⟨start, children, slot⟩
  | .pushFront _ => do
    if children.isEmpty then
      return ⟨digit, [← Node.emptyBelow r level], 0⟩
    else if digit + 1 = start then
      return ⟨digit, ← Slots.pushFront r children (← Node.emptyBelow r level), 0⟩
    else
      return ⟨start, children, ← Word.sub digit start⟩
  | .keepFrom => do
    return ⟨digit, ← Slots.dropFirst children (← Word.sub digit start), 0⟩
  | .keepThrough => do
    let slot ← Word.sub digit start
    return ⟨start, ← Slots.keepFirst children (slot + 1), slot⟩

def applyToLeaf (r : Radix) (edit : Edit α) (start : Nat) (slots : List α) (digit : Nat) :
    Except Fault (Node α) :=
  match edit with
  | .replace x => do
    return .leaf start (← Slots.set slots (← Word.sub digit start) x)
  | .pushBack x => do
    let start := if slots.isEmpty then digit else start
    let next ← Word.add start slots.length
    ensure (digit = next) (.detachedBack digit next)
    return .leaf start (← Slots.pushBack r slots x)
  | .pushFront x => do
    ensure (slots.isEmpty ∨ digit + 1 = start) .detachedFront
    return .leaf digit (← Slots.pushFront r slots x)
  | .keepFrom => do
    return .leaf digit (← Slots.dropFirst slots (← Word.sub digit start))
  | .keepThrough => do
    return .leaf start (← Slots.keepFirst slots ((← Word.sub digit start) + 1))

end Edit

namespace Node

def editBelow (r : Radix) (change : Edit α) (node : Node α) (level index : Nat) :
    Except Fault (Node α) :=
  match node with
  | .leaf start slots =>
    if level = 0 then change.applyToLeaf r start slots (r.lastDigit index)
    else .error .interiorExpected
  | .interior start children =>
    if level = 0 then .error .leafExpected
    else do
      let opened ← change.openNode r start children (← r.digit index level) level
      let child ← Slots.get opened.children opened.slot
      if r.bits ≤ level then
        let child ← child.editBelow r change (level - r.bits) index
        return .interior opened.start (opened.children.set opened.slot child)
      else
        throw .overflow
termination_by level
decreasing_by have := r.bits_pos; omega

/-- Applies an edit to the path of `index` below a root at `level`. An index past the last child of
the root is refused before anything is rebuilt. -/
def edit (r : Radix) (change : Edit α) (root : Node α) (level index : Nat) :
    Except Fault (Node α) := do
  ensure ((← upperDigits index level) < r.size) .beyondRoot
  root.editBelow r change level index

end Node

end DigitTrie
