import DigitTrie.Word

/-!
The number system that addresses the slots of a trie. Every node has `1 <<< bits` slots, so an index is
cut into digits of `bits` bits, one for each level of the tree. A level is named by the number of index
bits below it: leaves are at level zero, and each level above adds `bits`.
-/
namespace DigitTrie

/-- The base of a trie. Wider nodes than 128 slots are not on offer. -/
structure Radix where
  /-- The number of index bits that one level consumes. -/
  bits : Nat
  bits_pos : 0 < bits := by decide
  bits_le : bits ≤ 7 := by decide
deriving DecidableEq, Repr

def upperDigits (index level : Nat) : Except Fault Nat := Word.shiftRight index level

/-- The number of physical indices below the first `branches` children of a root, when these children
reach up to `level`. -/
def branchSpan (branches level : Nat) : Except Fault Nat := Word.shiftLeft branches level

namespace Radix

def size (r : Radix) : Nat := 1 <<< r.bits

def standard : Radix := ⟨5, by decide, by decide⟩

def ofSize? (slots : Nat) : Option Radix :=
  if h : 0 < slots.log2 ∧ slots.log2 ≤ 7 ∧ 1 <<< slots.log2 = slots then
    some ⟨slots.log2, h.1, h.2.1⟩
  else none

def lastDigit (r : Radix) (index : Nat) : Nat := index % r.size

/-- The digit of an index by which a node at `level` picks its child. -/
def digit (r : Radix) (index level : Nat) : Except Fault Nat := do
  return r.lastDigit (← upperDigits index level)

def capacity (r : Radix) (level : Nat) : Except Fault Nat := Word.shiftLeft r.size level

theorem two_le_size (r : Radix) : 2 ≤ r.size := by
  rw [size, Nat.one_shiftLeft]
  exact Nat.pow_le_pow_right (n := 2) (by decide) r.bits_pos

theorem size_pos (r : Radix) : 0 < r.size := Nat.lt_of_lt_of_le (by decide) r.two_le_size

theorem size_of_ofSize? {slots : Nat} {r : Radix} (h : ofSize? slots = some r) : r.size = slots := by
  unfold ofSize? at h
  split at h
  · rename_i fits
    cases h
    exact fits.2.2
  · cases h

theorem ofSize?_size (r : Radix) : ofSize? r.size = some r := by
  simp [ofSize?, size, Nat.one_shiftLeft, Nat.log2_two_pow, r.bits_pos, r.bits_le]

end Radix

end DigitTrie
