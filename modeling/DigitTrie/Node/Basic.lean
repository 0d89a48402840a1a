import DigitTrie.Slots

/-!
The nodes of a trie. A node keeps its used slots only, and `start` is the digit of the first of them:
the child for digit `d` stands in slot `d - start`. On the left edge of a tree nodes may start late,
because what was dropped is really gone; the level of a node is not kept, since it follows from the
level of the root.
-/
namespace DigitTrie

/-- A subtree: elements at the bottom level, nodes at the levels above. -/
inductive Node (α : Type) where
  | leaf (start : Nat) (slots : List α)
  | interior (start : Nat) (children : List (Node α))
deriving Repr

structure Leaf (α : Type) where
  start : Nat
  slots : List α
deriving DecidableEq, Repr

def Leaf.at? {α : Type} (leaf : Leaf α) (digit : Nat) : Option α :=
  Slots.at? leaf.slots leaf.start digit

namespace Node

variable {α : Type}

mutual

def decEq [DecidableEq α] : (a b : Node α) → Decidable (a = b)
  | .leaf s xs, .leaf t ys =>
    if h : s = t ∧ xs = ys then isTrue (by rw [h.1, h.2]) else isFalse (by simpa using h)
  | .interior s cs, .interior t ds =>
    match decEqForest cs ds with
    | isTrue same =>
      if h : s = t then isTrue (by rw [h, same]) else isFalse (by simp [h])
    | isFalse other => isFalse (by simp [other])
  | .leaf _ _, .interior _ _ => isFalse (by simp)
  | .interior _ _, .leaf _ _ => isFalse (by simp)

def decEqForest [DecidableEq α] : (as bs : List (Node α)) → Decidable (as = bs)
  | [], [] => isTrue rfl
  | a :: as, b :: bs =>
    match decEq a b, decEqForest as bs with
    | isTrue first, isTrue rest => isTrue (by rw [first, rest])
    | isFalse first, _ => isFalse (by simp [first])
    | _, isFalse rest => isFalse (by simp [rest])
  | [], _ :: _ => isFalse (by simp)
  | _ :: _, [] => isFalse (by simp)

end

instance [DecidableEq α] : DecidableEq (Node α) := decEq

def empty (level : Nat) : Node α :=
  if level = 0 then .leaf 0 [] else .interior 0 []

instance : Inhabited (Node α) := ⟨empty 0⟩

def emptyBelow (r : Radix) (level : Nat) : Except Fault (Node α) := do
  return empty (← Word.sub level r.bits)

def unit (x : α) : Node α := .leaf 0 [x]

/-- A node whose only child stands at digit `start`. -/
def parentOf (child : Node α) (start : Nat) : Node α := .interior start [child]

def start : Node α → Nat
  | .leaf start _ => start
  | .interior start _ => start

def used : Node α → Nat
  | .leaf _ slots => slots.length
  | .interior _ children => children.length

mutual

def toList : Node α → List α
  | .leaf _ slots => slots
  | .interior _ children => forestToList children

def forestToList : List (Node α) → List α
  | [] => []
  | child :: rest => child.toList ++ forestToList rest

end

/-- The start digit and the number of used slots of every node on the left edge, from the top down. -/
def leftEdge : Node α → List (Nat × Nat)
  | .leaf start slots => [(start, slots.length)]
  | .interior start [] => [(start, 0)]
  | .interior start (child :: rest) => (start, rest.length + 1) :: child.leftEdge

mutual

def rightEdge : Node α → List (Nat × Nat)
  | .leaf start slots => [(start, slots.length)]
  | .interior start children => (start, children.length) :: lastEdge children

def lastEdge : List (Node α) → List (Nat × Nat)
  | [] => []
  | [child] => child.rightEdge
  | _ :: child :: rest => lastEdge (child :: rest)

end

theorem forestToList_eq_flatMap (children : List (Node α)) :
    forestToList children = children.flatMap toList := by
  induction children with
  | nil => simp [forestToList]
  | cons child rest ih => simp [forestToList, ih]

end Node

end DigitTrie
