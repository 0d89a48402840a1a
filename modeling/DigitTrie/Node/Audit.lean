import DigitTrie.Node.Basic

/-!
Checking the shape of a tree. A node away from the left edge has to start at digit zero, a node away
from the right edge has to use its last digit, and no node may be empty. Together with the number of
elements and the first and last physical index this leaves no room for an element out of place.
-/
namespace DigitTrie.Node

variable {α : Type}

def auditSlots (r : Radix) (start count : Nat) (onLeft onRight : Bool) : Except Fault Unit := do
  ensure (count ≠ 0) (.defect .emptyNode)
  let stop ← Word.add start count
  ensure (stop ≤ r.size) (.defect .overlongNode)
  ensure (onLeft ∨ start = 0) (.defect (.leadingGap start))
  ensure (onRight ∨ stop = r.size) (.defect (.trailingGap stop r.size))

mutual

/-- Checks a subtree at `level` and counts its elements. `onLeft` and `onRight` say whether the node
lies on an edge of the whole tree. -/
def audit (r : Radix) (node : Node α) (level : Nat) (onLeft onRight : Bool) : Except Fault Nat :=
  match node with
  | .leaf start slots => do
    ensure (level = 0) (.defect (.leafAboveBottom level))
    auditSlots r start slots.length onLeft onRight
    return slots.length
  | .interior start children => do
    ensure (level ≠ 0) (.defect .interiorAtBottom)
    auditSlots r start children.length onLeft onRight
    auditForest r children (← Word.sub level r.bits) onLeft onRight

/-- Checks neighbouring subtrees and counts their elements. Only the first can lie on the left edge
of the whole tree, and only the last on the right edge. -/
def auditForest (r : Radix) (children : List (Node α)) (level : Nat) (onLeft onRight : Bool) :
    Except Fault Nat :=
  match children with
  | [] => return 0
  | child :: rest => do
    let count ← child.audit r level onLeft (onRight && rest.isEmpty)
    return count + (← auditForest r rest level false onRight)

end

def firstIndex (r : Radix) (node : Node α) (level : Nat) : Except Fault Nat :=
  match node with
  | .leaf start _ => return start
  | .interior start children => do
    let base ← Word.shiftLeft start level
    match children with
    | [] => throw .unusedSlot
    | child :: _ => Word.add base (← child.firstIndex r (← Word.sub level r.bits))

mutual

def lastIndex (r : Radix) (node : Node α) (level : Nat) : Except Fault Nat :=
  match node with
  | .leaf start slots => do
    Word.sub (← Word.add start slots.length) 1
  | .interior start children => do
    let last ← Word.sub (← Word.add start children.length) 1
    let base ← Word.shiftLeft last level
    Word.add base (← lastIndexOfForest r children level)

/-- The physical index of the last element of the last child of a node at `level`, counted from the
first index below that child. -/
def lastIndexOfForest (r : Radix) (children : List (Node α)) (level : Nat) : Except Fault Nat :=
  match children with
  | [] => throw .overflow
  | [child] => do
    child.lastIndex r (← Word.sub level r.bits)
  | _ :: child :: rest => lastIndexOfForest r (child :: rest) level

end

/-- Checks that a root at `level` holds exactly the physical indices from `offset` on, `length` of
them. -/
def auditRoot (r : Radix) (root : Node α) (level offset length : Nat) : Except Fault Unit := do
  let count ← root.audit r level true true
  ensure (count = length) (.defect (.wrongCount count length))
  let first ← root.firstIndex r level
  ensure (first = offset) (.defect (.wrongFirst first offset))
  let last ← root.lastIndex r level
  let expected ← Word.sub (← Word.add offset length) 1
  ensure (last = expected) (.defect (.wrongLast last expected))

end DigitTrie.Node
