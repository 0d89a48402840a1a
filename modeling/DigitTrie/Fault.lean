/-!
What can stop an operation. A `Fault` is the reason why an operation gave no result, and a `Defect`
is what an audit found wrong with the shape of a trie. Both are causes; the wording of each stands in
`message`, and the two numbers that should have been equal, where there are two, in `compared`.
-/
namespace DigitTrie

inductive Defect where
  /-- There is no tree, but a length is claimed. -/
  | lengthWithoutRoot (length : Nat)
  /-- There is no tree, but an offset is claimed. -/
  | offsetWithoutRoot (offset : Nat)
  /-- There is no tree, but a level is claimed. -/
  | levelWithoutRoot (level : Nat)
  /-- There is a tree, and it is claimed to hold nothing. -/
  | rootWithoutLength
  /-- The root's level lies `excess` bits above the last whole digit. -/
  | unalignedLevel (excess : Nat)
  /-- The elements do not fit below a root at this level. -/
  | windowBeyondCapacity
  | leafAboveBottom (level : Nat)
  | interiorAtBottom
  | emptyNode
  /-- The used slots of a node reach past its last digit. -/
  | overlongNode
  /-- A node away from the left edge starts after digit zero. -/
  | leadingGap (start : Nat)
  /-- A node away from the right edge stops before its last digit. -/
  | trailingGap (stop size : Nat)
  | wrongCount (found length : Nat)
  | wrongFirst (found offset : Nat)
  | wrongLast (found last : Nat)
deriving DecidableEq, Repr

inductive Fault where
  /-- A number left the range of 64-bit words, or a word was shifted by its whole width. -/
  | overflow
  /-- A slot outside of the used ones was asked for. -/
  | unusedSlot
  /-- A node had no slot left for another child or element. -/
  | fullNode
  /-- The caller named an index that the trie does not have. -/
  | indexOutOfRange (index length : Nat)
  /-- No element is stored at an index that has to hold one. -/
  | noElement
  /-- The tree has no leaf for a physical index inside of the trie's window. -/
  | noLeaf (index : Nat)
  /-- An edit was aimed past the last child of the root. -/
  | beyondRoot
  /-- A look-up met a leaf above the bottom level. -/
  | leafInTheWay (level : Nat)
  /-- An edit met a leaf above the bottom level. -/
  | interiorExpected
  /-- An edit met an interior node at the bottom level. -/
  | leafExpected
  /-- A new last child would leave a gap behind the present ones. -/
  | detachedChild
  /-- A new last element belongs at `digit`, and the leaf ends before `next`. -/
  | detachedBack (digit next : Nat)
  /-- A new first element would leave a gap before the present ones. -/
  | detachedFront
  | defect (found : Defect)
deriving DecidableEq, Repr

namespace Defect

/-- The wording of a finding; one that only compares two numbers has none. -/
def message : Defect → String
  | rootWithoutLength => "self.length > 0"
  | windowBeyondCapacity => "self.offset + self.length <= capacity::<N>(self.depth_shift)"
  | leafAboveBottom _ => "leaf above the bottom level"
  | interiorAtBottom => "interior node at the bottom level"
  | emptyNode => "empty node"
  | overlongNode => "node overflows its slots"
  | leadingGap _ => "inner node with leading gap"
  | trailingGap _ _ => "inner node with trailing gap"
  | lengthWithoutRoot _ | offsetWithoutRoot _ | levelWithoutRoot _ | unalignedLevel _
  | wrongCount _ _ | wrongFirst _ _ | wrongLast _ _ => ""

def compared : Defect → Option (Nat × Nat)
  | lengthWithoutRoot n | offsetWithoutRoot n | levelWithoutRoot n | unalignedLevel n
  | leafAboveBottom n | leadingGap n => some (n, 0)
  | trailingGap n m | wrongCount n m | wrongFirst n m | wrongLast n m => some (n, m)
  | rootWithoutLength | windowBeyondCapacity | interiorAtBottom | emptyNode | overlongNode => none

end Defect

namespace Fault

/-- The wording of a fault; one that only compares two numbers has none. -/
def message : Fault → String
  | overflow => "arithmetic overflow"
  | unusedSlot => "slot not in use"
  | fullNode => "no slot left"
  | indexOutOfRange index length =>
    s!"index {index} out of range for a trie of length {length}"
  | noElement => "index out of range"
  | noLeaf index => s!"no leaf for physical index {index}"
  | beyondRoot => "pos < N"
  | interiorExpected => "expected an interior node above the leaves"
  | leafExpected => "expected a leaf at the bottom level"
  | detachedChild => "slot <= children.len()"
  | detachedFront => "data.is_empty() || digit + 1 == *start"
  | leafInTheWay _ | detachedBack _ _ => ""
  | defect found => found.message

def compared : Fault → Option (Nat × Nat)
  | leafInTheWay level => some (level, 0)
  | detachedBack digit next => some (digit, next)
  | defect found => found.compared
  | overflow | unusedSlot | fullNode | indexOutOfRange _ _ | noElement | noLeaf _ | beyondRoot
  | interiorExpected | leafExpected | detachedChild | detachedFront => none

end Fault

def ensure (holds : Prop) [Decidable holds] (fault : Fault) : Except Fault Unit :=
  if holds then .ok () else .error fault

@[simp] theorem ensure_eq_ok_iff {holds : Prop} [Decidable holds] {fault : Fault} {u : Unit} :
    ensure holds fault = .ok u ↔ holds := by
  unfold ensure
  split <;> simp_all

/-- A sequence of two steps succeeds exactly if the first does and the second does with its result. -/
theorem bind_eq_ok_iff {β γ : Type} {first : Except Fault β} {second : β → Except Fault γ} {z : γ} :
    first >>= second = .ok z ↔ ∃ y, first = .ok y ∧ second y = .ok z := by
  cases first <;> simp [bind, Except.bind]

end DigitTrie
