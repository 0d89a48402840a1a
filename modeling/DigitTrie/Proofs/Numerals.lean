import Mathlib.Algebra.BigOperators.Intervals
import Mathlib.Algebra.BigOperators.Ring.Finset
import DigitTrie.Proofs.Digits

/-! The digits of an index are a numeral. Cut up by shifts and masks, an index below a root is the sum of its
digits, each weighted with its level, and no other digits have that sum. The order of indices is decided at the
highest level where their digits differ, and the next index carries: one digit goes up by one, and those below
it start again from zero. -/
namespace DigitTrie.Radix

variable {r : Radix} {p q n top level : Nat} {d e : Nat → Nat}

def widest : Radix := ⟨7, by decide, by decide⟩

/-- The digits of `p` for a root at `top`: `d j` picks the child in a node at height `j`. -/
def Spells (r : Radix) (top : Nat) (d : Nat → Nat) (p : Nat) : Prop :=
  ∀ j, j ≤ top → r.digit p (r.level j) = .ok (d j)

/-- The number that digits stand for: each counts as often as there are indices below a slot of its level. -/
def weigh (r : Radix) (top : Nat) (d : Nat → Nat) : Nat :=
  ∑ j ∈ Finset.range (top + 1), d j * 2 ^ r.level j

/-- The digits `e` follow the digits `d`, with a carry that ends at height `j`. -/
structure Carries (r : Radix) (top : Nat) (d e : Nat → Nat) (j : Nat) : Prop where
  inside : j ≤ top
  step : e j = d j + 1
  above : ∀ i, j < i → i ≤ top → e i = d i
  below : ∀ i, i < j → d i = r.size - 1 ∧ e i = 0

/-- A carry ends at one height only: below the end of a carry all digits are zero. -/
theorem Carries.unique {i j : Nat} (one : r.Carries top d e i) (other : r.Carries top d e j) : i = j := by
  have no_lower {i j : Nat} (one : r.Carries top d e i) (other : r.Carries top d e j) : ¬ i < j := by
    intro lower
    have zero := (other.below i lower).2
    have step := one.step
    omega
  have := no_lower one other
  have := no_lower other one
  omega

def place (r : Radix) (p j : Nat) : Nat := p / r.span j % r.size

theorem place_lt (r : Radix) (p j : Nat) : r.place p j < r.size := Nat.mod_lt _ r.size_pos

theorem place_zero : r.place p 0 = p % r.size := by rw [place, span_zero, Nat.div_one]

theorem place_succ (r : Radix) (p j : Nat) : r.place p (j + 1) = r.place (p / r.size) j := by
  rw [place, place, span_succ, Nat.mul_comm, Nat.div_div_eq_div_mul]

theorem digit_eq_mask (word : level ≤ 63) : r.digit p level = .ok ((p >>> level) &&& (r.size - 1)) := by
  have shifted : upperDigits p level = .ok (p >>> level) :=
    Word.shiftRight_eq_ok_iff.mpr ⟨Nat.lt_succ_of_le word, rfl⟩
  rw [size_eq, Nat.and_two_pow_sub_one_eq_mod, ← size_eq, digit, shifted]
  rfl

theorem spells_iff (word : r.level top ≤ 63) : r.Spells top d p ↔ ∀ j, j ≤ top → d j = r.place p j := by
  refine forall₂_congr fun j below => ?_
  have lower : r.level j ≤ r.level top := Nat.mul_le_mul_right _ below
  rw [digit_level (by omega), Except.ok.injEq, eq_comm]
  rfl

/-- An index is what its lower digits stand for, and what is left of it above them. -/
theorem sum_place (r : Radix) (p n : Nat) :
    ∑ j ∈ Finset.range n, r.place p j * r.span j + p / r.span n * r.span n = p := by
  induction n with
  | zero => simp
  | succ n ih =>
    have slot : p / r.span n * r.span n =
        r.place p n * r.span n + p / r.span (n + 1) * r.span (n + 1) := by
      rw [r.slot_split n p, Nat.add_mul, Nat.mul_assoc, Nat.mul_comm r.size, ← span_succ, Nat.add_comm]
      rfl
    rw [Finset.sum_range_succ, Nat.add_assoc, ← slot, ih]

theorem weigh_place (below : p < r.span (top + 1)) : r.weigh top (r.place p) = p := by
  have sum := r.sum_place p (top + 1)
  rwa [Nat.div_eq_of_lt below, Nat.zero_mul, Nat.add_zero] at sum

/-- With one more digit at the lower end, all others count `size` times as much. -/
theorem weigh_succ (r : Radix) (top : Nat) (d : Nat → Nat) :
    r.weigh (top + 1) d = d 0 + r.size * r.weigh top fun j => d (j + 1) := by
  have last : d 0 * 2 ^ r.level 0 = d 0 := by simp
  rw [weigh, Finset.sum_range_succ', last, Nat.add_comm, weigh, Finset.mul_sum]
  congr 1
  refine Finset.sum_congr rfl fun j _ => ?_
  rw [level_succ, two_pow_add_bits, Nat.mul_left_comm]

theorem place_weigh (small : ∀ j, j ≤ top → d j < r.size) :
    ∀ j, j ≤ top → r.place (r.weigh top d) j = d j := by
  induction top generalizing d with
  | zero =>
    intro j bottom
    obtain rfl : j = 0 := Nat.le_zero.mp bottom
    simp [weigh, place_zero, Nat.mod_eq_of_lt (small 0 bottom)]
  | succ top ih =>
    have last := small 0 (Nat.zero_le _)
    intro j below
    rw [weigh_succ]
    cases j with
    | zero => rw [place_zero, Nat.add_mul_mod_self_left, Nat.mod_eq_of_lt last]
    | succ j =>
      rw [place_succ, Nat.add_mul_div_left _ _ r.size_pos, Nat.div_eq_of_lt last, Nat.zero_add]
      exact ih (fun i inside => small (i + 1) (Nat.succ_le_succ inside)) j (Nat.le_of_succ_le_succ below)

/-- Indices below one node are ordered as their digits are at the highest level where these differ. The
induction is on the height of the node: either the indices stand below one slot of it, or its own digits
decide. -/
theorem lt_iff_place_lt (same : p / r.span n = q / r.span n) :
    p < q ↔ ∃ j, j < n ∧ r.place p j < r.place q j ∧ ∀ i, j < i → i < n → r.place p i = r.place q i := by
  induction n with
  | zero =>
    rw [span_zero, Nat.div_one, Nat.div_one] at same
    simp [same]
  | succ n ih =>
    by_cases slot : p / r.span n = q / r.span n
    · have digit : r.place p n = r.place q n := (digit_eq_iff same).mpr slot
      rw [ih slot]
      constructor
      · rintro ⟨j, inside, less, above⟩
        refine ⟨j, Nat.lt_succ_of_lt inside, less, fun i higher below => ?_⟩
        rcases Nat.lt_succ_iff_lt_or_eq.mp below with lower | rfl
        · exact above i higher lower
        · exact digit
      · rintro ⟨j, inside, less, above⟩
        have other : j ≠ n := by
          rintro rfl
          omega
        exact ⟨j, by omega, less, fun i higher below => above i higher (Nat.lt_succ_of_lt below)⟩
    · have differ : r.place p n ≠ r.place q n := fun digit => slot ((digit_eq_iff same).mp digit)
      have order : r.place q n ≤ r.place p n ↔ q ≤ p := digit_le_iff same.symm (Ne.symm slot)
      constructor
      · intro less
        exact ⟨n, Nat.lt_succ_self n, by omega, fun i higher below => by omega⟩
      · rintro ⟨j, inside, less, above⟩
        have here : j = n := by
          by_contra other
          exact differ (above n (by omega) (Nat.lt_succ_self n))
        subst here
        omega

/-- Below one node the next index carries. Where it opens a further slot, all digits below that slot are used
up and start again. -/
theorem exists_carry (same : p / r.span n = (p + 1) / r.span n) :
    ∃ j, j < n ∧ r.place (p + 1) j = r.place p j + 1 ∧
      (∀ i, j < i → i < n → r.place (p + 1) i = r.place p i) ∧
      ∀ i, i < j → r.place p i = r.size - 1 ∧ r.place (p + 1) i = 0 := by
  induction n with
  | zero =>
    rw [span_zero, Nat.div_one, Nat.div_one] at same
    omega
  | succ n ih =>
    have split := r.slot_split n p
    have next := r.slot_split n (p + 1)
    rcases r.slot_succ n p with slot | ⟨step, aligned⟩
    · obtain ⟨j, inside, step, above, below⟩ := ih slot.symm
      refine ⟨j, Nat.lt_succ_of_lt inside, step, fun i higher lower => ?_, below⟩
      rcases Nat.lt_succ_iff_lt_or_eq.mp lower with lower | rfl
      · exact above i higher lower
      · exact (digit_eq_iff same.symm).mpr slot
    · refine ⟨n, Nat.lt_succ_self n, ?_, fun i higher lower => by omega, fun i lower => ?_⟩
      · rw [← same] at next
        change (p + 1) / r.span n % r.size = p / r.span n % r.size + 1
        omega
      · have whole : r.span (i + 1) ∣ p + 1 := by
          have wider : r.span (i + 1) ∣ r.span n := Nat.pow_dvd_pow 2 (Nat.mul_le_mul_right _ lower)
          exact Nat.dvd_trans wider ⟨_, by rw [Nat.mul_comm]; exact aligned.symm⟩
        have full := (digit_before_aligned (Nat.mod_eq_zero_of_dvd whole)).1
        have zero := (digit_of_aligned (Nat.mod_eq_zero_of_dvd whole)).1
        exact ⟨Nat.eq_sub_of_add_eq full, zero⟩

/-! The same, said of the digits as they are computed. -/

theorem same_root (p_inside : p >>> r.level top < r.size) (q_inside : q >>> r.level top < r.size) :
    p / r.span (top + 1) = q / r.span (top + 1) := by
  rw [shiftRight_level_lt_iff] at p_inside q_inside
  rw [Nat.div_eq_of_lt p_inside, Nat.div_eq_of_lt q_inside]

theorem first_digit (word : r.level top ≤ 63) (inside : p >>> r.level top < r.size) :
    upperDigits p (r.level top) = r.digit p (r.level top) := by
  rw [Nat.shiftRight_eq_div_pow] at inside
  rw [upperDigits_level (Nat.lt_succ_of_le word), digit_level (Nat.lt_succ_of_le word)]
  exact congrArg Except.ok (Nat.mod_eq_of_lt inside).symm

theorem lt_iff_digits_lt (word : r.level top ≤ 63) (same : p / r.span (top + 1) = q / r.span (top + 1))
    (p_digits : r.Spells top d p) (q_digits : r.Spells top e q) :
    p < q ↔ ∃ j, j ≤ top ∧ d j < e j ∧ ∀ i, j < i → i ≤ top → d i = e i := by
  rw [spells_iff word] at p_digits q_digits
  rw [lt_iff_place_lt same]
  simp only [Nat.lt_succ_iff]
  refine exists_congr fun j => and_congr_right fun below => ?_
  rw [p_digits j below, q_digits j below]
  refine and_congr_right fun _ => forall₃_congr fun i _ inside => ?_
  rw [p_digits i inside, q_digits i inside]

theorem exists_carries (word : r.level top ≤ 63)
    (same : p / r.span (top + 1) = (p + 1) / r.span (top + 1)) (digits : r.Spells top d p)
    (next_digits : r.Spells top e (p + 1)) : ∃ j, r.Carries top d e j := by
  rw [spells_iff word] at digits next_digits
  obtain ⟨j, inside, step, above, below⟩ := exists_carry same
  have inside : j ≤ top := Nat.le_of_lt_succ inside
  refine ⟨j, inside, ?_, fun i higher lower => ?_, fun i lower => ?_⟩
  · rw [next_digits j inside, digits j inside, step]
  · rw [next_digits i lower, digits i lower, above i higher (Nat.lt_succ_of_le lower)]
  · rw [next_digits i (by omega), digits i (by omega)]
    exact below i lower

/-- Indices below a root are the numerals of their digits. A digit is cut out by a shift and a mask and is less
than the number of slots, and the first one needs no mask; the digits add up to the index, and any digits are
those of the number they add up to; indices are ordered as their digits, from the top down; and from one index
to the next there is one place where a carry ends. The root need not be one that could be full, so all of it
also holds on the last level of a word. -/
theorem digits_positional (word : r.level top ≤ 63) :
    (∀ p level, level ≤ 63 → ∃ digit, r.digit p level = .ok digit ∧
      digit = (p >>> level) &&& (r.size - 1) ∧ digit < r.size) ∧
    (∀ p, p >>> r.level top < r.size →
      upperDigits p (r.level top) = r.digit p (r.level top) ∧
      ∃ d, r.Spells top d p ∧ (∀ j, j ≤ top → d j < r.size) ∧ p = r.weigh top d) ∧
    (∀ d, (∀ j, j ≤ top → d j < r.size) → r.Spells top d (r.weigh top d)) ∧
    (∀ p q d e, p >>> r.level top < r.size → q >>> r.level top < r.size →
      r.Spells top d p → r.Spells top e q →
      (p < q ↔ ∃ j, j ≤ top ∧ d j < e j ∧ ∀ i, j < i → i ≤ top → d i = e i)) ∧
    (∀ p d e, p >>> r.level top < r.size → (p + 1) >>> r.level top < r.size →
      r.Spells top d p → r.Spells top e (p + 1) → ∃! j, r.Carries top d e j) := by
  refine ⟨fun p level inside => ?_, fun p inside => ⟨first_digit word inside, r.place p, ?_, ?_, ?_⟩,
    fun d small => ?_, fun p q d e p_inside q_inside => lt_iff_digits_lt word (same_root p_inside q_inside),
    fun p d e inside next_inside digits next_digits => ?_⟩
  · refine ⟨_, digit_eq_mask inside, rfl, ?_⟩
    exact Nat.lt_of_le_of_lt Nat.and_le_right (Nat.sub_lt r.size_pos Nat.one_pos)
  · exact (spells_iff word).mpr fun j _ => rfl
  · exact fun j _ => r.place_lt p j
  · exact (weigh_place ((shiftRight_level_lt_iff top p).mp inside)).symm
  · exact (spells_iff word).mpr fun j below => (place_weigh small j below).symm
  · obtain ⟨j, carries⟩ := exists_carries word (same_root inside next_inside) digits next_digits
    exact ⟨j, carries, fun i other => other.unique carries⟩

/-- The last level of a word in the largest nodes, where a full root would be wider than a word: the carry goes
through all nine levels below it. -/
theorem digits_positional_last_level :
    widest.level 9 ≤ 63 ∧ ∃ d e, widest.Spells 9 d (2 ^ 63 - 1) ∧ widest.Spells 9 e (2 ^ 63) ∧
      widest.weigh 9 d = 2 ^ 63 - 1 ∧ (∃! j, widest.Carries 9 d e j) ∧ d 8 = 127 ∧ e 8 = 0 ∧ e 9 = 1 := by
  have word : widest.level 9 ≤ 63 := by decide
  obtain ⟨-, spelled, -, -, carried⟩ := digits_positional word
  obtain ⟨-, d, digits, -, sum⟩ := spelled (2 ^ 63 - 1) (by decide)
  obtain ⟨-, e, next_digits, -, -⟩ := spelled (2 ^ 63) (by decide)
  refine ⟨word, d, e, digits, next_digits, sum.symm,
    carried _ d e (by decide) (by decide) digits next_digits, ?_, ?_, ?_⟩
  · exact (Except.ok.inj (digits 8 (by decide))).symm
  · exact (Except.ok.inj (next_digits 8 (by decide))).symm
  · exact (Except.ok.inj (next_digits 9 (by decide))).symm

end DigitTrie.Radix
