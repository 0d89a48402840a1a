import Mathlib.Algebra.Group.Nat.Defs
import DigitTrie.Radix

/-! Levels counted in nodes, and the indices that stand below one slot or one node. A node at height
`h` stands `h` nodes above the leaves; all facts about digits that the tree needs are facts about
division by the number of indices below a slot. -/
namespace DigitTrie

namespace Word

theorem limit_eq : limit = 2 ^ 64 := rfl

theorem add_of_lt {a b c : Nat} (sum : a + b = c) (small : c < 2 ^ 64) : add a b = .ok c := by
  rw [add_eq_ok_iff, limit_eq, sum]
  exact ⟨small, rfl⟩

theorem sub_of_le {a b : Nat} (le : b ≤ a) : sub a b = .ok (a - b) :=
  sub_eq_ok_iff.mpr ⟨le, rfl⟩

theorem shiftLeft_of_lt {a count : Nat} (word : count < 64) (small : a * 2 ^ count < 2 ^ 64) :
    shiftLeft a count = .ok (a * 2 ^ count) := by
  rw [shiftLeft_eq_ok_iff, Nat.shiftLeft_eq, limit_eq]
  exact ⟨word, Nat.mod_eq_of_lt small⟩

end Word

namespace Radix

variable {r : Radix} {height first last p q c : Nat}

def binary : Radix := ⟨1, by decide, by decide⟩

/-- The level of a node that stands `height` nodes above the leaves. -/
def level (r : Radix) (height : Nat) : Nat := height * r.bits

/-- The number of indices below one slot of a node at `height`; with one more level, below the node. -/
def span (r : Radix) (height : Nat) : Nat := 2 ^ r.level height

def lastSlot (r : Radix) (height : Nat) : Nat := (r.size - 1) * r.span height

theorem size_eq (r : Radix) : r.size = 2 ^ r.bits := Nat.one_shiftLeft _

@[simp] theorem level_zero : r.level 0 = 0 := Nat.zero_mul _

theorem level_succ : r.level (height + 1) = r.level height + r.bits := Nat.succ_mul ..

theorem level_succ_ne_zero : r.level (height + 1) ≠ 0 := by
  have := r.bits_pos
  rw [level_succ]; omega

theorem level_lt_succ : r.level height < r.level (height + 1) := by
  have := r.bits_pos
  rw [level_succ]; omega

theorem level_mod_bits : r.level height % r.bits = 0 := Nat.mul_mod_left ..

theorem eq_level_of_mod_bits {n : Nat} (aligned : n % r.bits = 0) : ∃ height, n = r.level height :=
  ⟨n / r.bits, (Nat.div_mul_cancel (Nat.dvd_of_mod_eq_zero aligned)).symm⟩

theorem level_injective {a b : Nat} (same : r.level a = r.level b) : a = b :=
  Nat.eq_of_mul_eq_mul_right r.bits_pos same

@[simp] theorem span_zero : r.span 0 = 1 := by simp [span]

theorem span_succ (r : Radix) (height : Nat) : r.span (height + 1) = r.span height * r.size := by
  rw [span, level_succ, Nat.pow_add, size_eq]; rfl

theorem span_pos (r : Radix) (height : Nat) : 0 < r.span height := Nat.two_pow_pos _

theorem size_mul_two_pow_level : r.size * 2 ^ r.level height = r.span (height + 1) := by
  rw [span_succ, Nat.mul_comm]; rfl

/-- A root that stands one level higher has room for a full root in each of its slots. -/
theorem two_pow_add_bits (r : Radix) (level : Nat) : 2 ^ (level + r.bits) = r.size * 2 ^ level := by
  rw [Nat.pow_add, size_eq, Nat.mul_comm]

theorem one_shiftLeft_level : 1 <<< r.level height = r.span height := Nat.one_shiftLeft _

theorem two_mul_span_le (r : Radix) (height : Nat) : 2 * r.span height ≤ r.span (height + 1) := by
  rw [span_succ, Nat.mul_comm]
  exact Nat.mul_le_mul_left _ r.two_le_size

theorem span_le_of_le (r : Radix) {a b : Nat} (le : a ≤ b) : r.span a ≤ r.span b :=
  Nat.pow_le_pow_right (by decide) (Nat.mul_le_mul_right _ le)

theorem height_le {top n : Nat} (room : n ≤ r.span (top + 1)) (least : height = 0 ∨ r.span height < n) :
    height ≤ top := by
  rcases least with rfl | lower
  · exact Nat.zero_le top
  · refine Nat.le_of_not_lt fun above => ?_
    have wider : r.span (top + 1) ≤ r.span height := r.span_le_of_le above
    omega

theorem lastSlot_pos (r : Radix) (height : Nat) : 0 < r.lastSlot height := by
  have size := r.two_le_size
  exact Nat.mul_pos (by omega) (r.span_pos height)

theorem span_le_lastSlot (r : Radix) (height : Nat) : r.span height ≤ r.lastSlot height := by
  have size := r.two_le_size
  exact Nat.le_mul_of_pos_left _ (by omega)

theorem others_add_last (r : Radix) (below : Nat) : (r.size - 1) * below + below = r.size * below := by
  rw [← Nat.succ_mul, Nat.succ_eq_add_one, Nat.sub_add_cancel r.size_pos]

theorem lastSlot_add_span (r : Radix) (height : Nat) :
    r.lastSlot height + r.span height = r.span (height + 1) := by
  rw [lastSlot, others_add_last, span_succ, Nat.mul_comm]

theorem size_le (r : Radix) : r.size ≤ 128 := by
  rw [size_eq]
  exact Nat.pow_le_pow_right (n := 2) (by decide) r.bits_le

theorem span_succ_lt_word (fits : r.level height + r.bits ≤ 63) : r.span (height + 1) ≤ 2 ^ 63 := by
  rw [← level_succ] at fits
  exact Nat.pow_le_pow_right (by decide) fits

/-! Digits of an index. -/

theorem bits_le_level_succ : r.bits ≤ r.level (height + 1) := by
  rw [level_succ]; omega

theorem level_succ_sub_bits : r.level (height + 1) - r.bits = r.level height := by
  rw [level_succ]; omega

theorem sub_bits_level : Word.sub (r.level (height + 1)) r.bits = .ok (r.level height) :=
  Word.sub_eq_ok_iff.mpr ⟨bits_le_level_succ, level_succ_sub_bits⟩

theorem upperDigits_level (word : r.level height < 64) :
    upperDigits p (r.level height) = .ok (p / r.span height) := by
  rw [upperDigits, Word.shiftRight_eq_ok_iff, Nat.shiftRight_eq_div_pow]
  exact ⟨word, rfl⟩

theorem digit_level (word : r.level height < 64) :
    r.digit p (r.level height) = .ok (p / r.span height % r.size) := by
  rw [digit, upperDigits_level word]; rfl

theorem capacity_level (fits : r.level height + r.bits ≤ 63) :
    r.capacity (r.level height) = .ok (r.span (height + 1)) := by
  have small := span_succ_lt_word fits
  rw [← size_mul_two_pow_level] at small ⊢
  exact Word.shiftLeft_of_lt (by omega) (by omega)

/-- The indices from `first` to `last` stand below one node at `height`. -/
structure Fits (r : Radix) (height first last : Nat) : Prop where
  ordered : first ≤ last
  sameNode : first / r.span (height + 1) = last / r.span (height + 1)

namespace Fits

theorem of_lt (ordered : first ≤ last) (below : last < r.span (height + 1)) :
    r.Fits height first last :=
  ⟨ordered, by rw [Nat.div_eq_of_lt below, Nat.div_eq_of_lt (Nat.lt_of_le_of_lt ordered below)]⟩

theorem part (fits : r.Fits height first last) (left : first ≤ p) (ordered : p ≤ q) (right : q ≤ last) :
    r.Fits height p q := by
  have low := Nat.div_le_div_right (c := r.span (height + 1)) left
  have mid := Nat.div_le_div_right (c := r.span (height + 1)) ordered
  have high := Nat.div_le_div_right (c := r.span (height + 1)) right
  have same := fits.sameNode
  exact ⟨ordered, by omega⟩

/-- Inside one node the distance of two slots is the difference of the digits. -/
theorem digit_le (fits : r.Fits height p q) :
    p / r.span height % r.size ≤ q / r.span height % r.size ∧
      q / r.span height % r.size - p / r.span height % r.size =
        q / r.span height - p / r.span height := by
  have same := fits.sameNode
  have ordered := Nat.div_le_div_right (c := r.span height) fits.ordered
  rw [span_succ, ← Nat.div_div_eq_div_mul, ← Nat.div_div_eq_div_mul] at same
  have hp := Nat.div_add_mod (p / r.span height) r.size
  have hq := Nat.div_add_mod (q / r.span height) r.size
  rw [← same] at hq
  omega

theorem lastDigit_le (fits : r.Fits 0 p q) : p % r.size ≤ q % r.size ∧
    q % r.size - p % r.size = q - p := by
  simpa using fits.digit_le

theorem digit_add_count_le (fits : r.Fits height first last) :
    first / r.span height % r.size + (last / r.span height + 1 - first / r.span height) ≤ r.size := by
  have distance := fits.digit_le
  have bound := Nat.mod_lt (last / r.span height) r.size_pos
  have ordered := Nat.div_le_div_right (c := r.span height) fits.ordered
  omega

end Fits

theorem slot_eq_iff : p / r.span height = c ↔
    c * r.span height ≤ p ∧ p ≤ c * r.span height + (r.span height - 1) := by
  have := r.span_pos height
  rw [Nat.div_eq_iff this]
  omega

theorem le_slot_iff : c ≤ p / r.span height ↔ c * r.span height ≤ p :=
  Nat.le_div_iff_mul_le (r.span_pos height)

theorem slot_le_iff : p / r.span height ≤ c ↔ p ≤ c * r.span height + (r.span height - 1) := by
  have positive := r.span_pos height
  have := Nat.div_lt_iff_lt_mul (x := p) (y := c + 1) positive
  rw [Nat.succ_mul] at this
  omega

theorem slot_succ (r : Radix) (height p : Nat) : (p + 1) / r.span height = p / r.span height ∨
    ((p + 1) / r.span height = p / r.span height + 1 ∧
      (p + 1) / r.span height * r.span height = p + 1) := by
  have positive := r.span_pos height
  have slot := slot_eq_iff.mp (rfl : p / r.span height = _)
  by_cases last : p + 1 ≤ p / r.span height * r.span height + (r.span height - 1)
  · exact .inl (slot_eq_iff.mpr ⟨by omega, last⟩)
  · have next : (p + 1) / r.span height = p / r.span height + 1 := by
      rw [slot_eq_iff, Nat.succ_mul]; omega
    refine .inr ⟨next, ?_⟩
    rw [next, Nat.succ_mul]; omega

theorem digit_of_aligned (aligned : p % r.span (height + 1) = 0) :
    p / r.span height % r.size = 0 ∧ p % r.span height = 0 := by
  rw [span_succ, Nat.mod_mul] at aligned
  refine ⟨?_, by omega⟩
  rcases Nat.mul_eq_zero.mp (by omega : r.span height * (p / r.span height % r.size) = 0) with room | zero
  · exact absurd room (Nat.ne_of_gt (r.span_pos height))
  · exact zero

theorem digit_before_aligned (aligned : (p + 1) % r.span (height + 1) = 0) :
    p / r.span height % r.size + 1 = r.size ∧ (p + 1) % r.span height = 0 := by
  have room := r.span_pos height
  have next := digit_of_aligned aligned
  rcases r.slot_succ height p with same | ⟨step, whole⟩
  · -- An aligned index opens a slot, so it is never below the slot of the index before it.
    have slot := slot_eq_iff.mp same.symm
    have split := Nat.div_add_mod' (p + 1) (r.span height)
    omega
  · refine ⟨?_, next.2⟩
    have zero := next.1
    have bound := Nat.mod_lt (p / r.span height) r.size_pos
    rw [step] at zero
    by_cases small : p / r.span height % r.size + 1 < r.size
    · rw [Nat.add_mod, Nat.mod_eq_of_lt (a := 1) (by have := r.two_le_size; omega),
        Nat.mod_eq_of_lt small] at zero
      omega
    · omega

/-- An index lies below a root exactly if its first digit is one. -/
theorem shiftRight_level_lt_iff (height p : Nat) :
    p >>> r.level height < r.size ↔ p < r.span (height + 1) := by
  rw [Nat.shiftRight_eq_div_pow, ← span, Nat.div_lt_iff_lt_mul (r.span_pos height), span_succ, Nat.mul_comm]

theorem slot_split (r : Radix) (height p : Nat) :
    p / r.span height = p / r.span (height + 1) * r.size + p / r.span height % r.size := by
  rw [span_succ, ← Nat.div_div_eq_div_mul, Nat.div_add_mod']

theorem digit_eq_iff (same : p / r.span (height + 1) = q / r.span (height + 1)) :
    p / r.span height % r.size = q / r.span height % r.size ↔ p / r.span height = q / r.span height := by
  have left := r.slot_split height p
  have right := r.slot_split height q
  rw [same] at left
  omega

theorem digit_le_iff (same : p / r.span (height + 1) = q / r.span (height + 1))
    (apart : p / r.span height ≠ q / r.span height) :
    p / r.span height % r.size ≤ q / r.span height % r.size ↔ p ≤ q := by
  have left := r.slot_split height p
  have right := r.slot_split height q
  rw [same] at left
  have up (le : p ≤ q) := Nat.div_le_div_right (c := r.span height) le
  have down (le : q ≤ p) := Nat.div_le_div_right (c := r.span height) le
  omega

theorem Fits.child (ordered : first ≤ last) (low : first / r.span (height + 1) ≤ c)
    (high : c ≤ last / r.span (height + 1)) :
    r.Fits height (max first (c * r.span (height + 1)))
      (min last (c * r.span (height + 1) + (r.span (height + 1) - 1))) := by
  have positive := r.span_pos (height + 1)
  rw [slot_le_iff] at low
  rw [le_slot_iff] at high
  have start : max first (c * r.span (height + 1)) / r.span (height + 1) = c := by
    rw [slot_eq_iff]; omega
  have stop : min last (c * r.span (height + 1) + (r.span (height + 1) - 1)) /
      r.span (height + 1) = c := by
    rw [slot_eq_iff]; omega
  exact ⟨by omega, by rw [start, stop]⟩

end Radix

end DigitTrie
