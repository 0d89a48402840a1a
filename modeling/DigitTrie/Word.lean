import DigitTrie.Fault

/-!
Arithmetic on indices, lengths and offsets, which are words of 64 bits. A word is kept as a natural
number, so the laws of arithmetic hold as they stand; what a word cannot hold is a fault. Only a shift
to the left by less than a whole word never fails: the bits that leave the word are lost.
-/
namespace DigitTrie.Word

def width : Nat := 64

/-- The number of words, which is the first number that is no word. -/
def limit : Nat := 1 <<< width

def add (a b : Nat) : Except Fault Nat :=
  if a + b < limit then .ok (a + b) else .error .overflow

def sub (a b : Nat) : Except Fault Nat :=
  if b ≤ a then .ok (a - b) else .error .overflow

def shiftRight (a count : Nat) : Except Fault Nat :=
  if count < width then .ok (a >>> count) else .error .overflow

/-- Bits shifted past the top of the word are lost. -/
def shiftLeft (a count : Nat) : Except Fault Nat :=
  if count < width then .ok ((a <<< count) % limit) else .error .overflow

@[simp] theorem add_eq_ok_iff {a b c : Nat} :
    add a b = .ok c ↔ a + b < limit ∧ a + b = c := by
  unfold add
  split <;> simp [*]

@[simp] theorem sub_eq_ok_iff {a b c : Nat} : sub a b = .ok c ↔ b ≤ a ∧ a - b = c := by
  unfold sub
  split <;> simp [*]

@[simp] theorem shiftRight_eq_ok_iff {a count c : Nat} :
    shiftRight a count = .ok c ↔ count < width ∧ a >>> count = c := by
  unfold shiftRight
  split <;> simp [*]

@[simp] theorem shiftLeft_eq_ok_iff {a count c : Nat} :
    shiftLeft a count = .ok c ↔ count < width ∧ (a <<< count) % limit = c := by
  unfold shiftLeft
  split <;> simp [*]

end DigitTrie.Word
