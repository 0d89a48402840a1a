import DigitTrie.Node.Basic
import DigitTrie.Proofs.Digits

/-! The tree of a window. For a height, a window of physical indices and the elements at them there is
one tree without gaps; here it is written down at once, from the arithmetic of the window alone. Every
tree that passes an audit is such a tree, and every edit turns one into another. -/
namespace DigitTrie.Node

variable {r : Radix} {α : Type} {f g : Nat → α} {height first last c : Nat}

/-- The subtree at `height` that stores `f p` at each physical index `p` from `first` to `last`, and
nothing else. -/
def filled (r : Radix) (f : Nat → α) : (height first last : Nat) → Node α
  | 0, first, last => .leaf (first % r.size) ((List.range' first (last + 1 - first)).map f)
  | height + 1, first, last =>
    let span := r.span (height + 1)
    .interior (first / span % r.size)
      ((List.range' (first / span) (last / span + 1 - first / span)).map fun c =>
        filled r f height (max first (c * span)) (min last (c * span + (span - 1))))

/-- What stands below slot `c`, when the slots of all nodes above `height` are counted through. -/
def part (r : Radix) (f : Nat → α) (height first last c : Nat) : Node α :=
  filled r f height (max first (c * r.span (height + 1)))
    (min last (c * r.span (height + 1) + (r.span (height + 1) - 1)))

def row (r : Radix) (f : Nat → α) (height first last : Nat) : List (Node α) :=
  (List.range' (first / r.span (height + 1))
    (last / r.span (height + 1) + 1 - first / r.span (height + 1))).map (part r f height first last)

def overwrite (f : Nat → α) (p : Nat) (x : α) : Nat → α := fun q => if q = p then x else f q

@[simp] theorem overwrite_same {p : Nat} {x : α} : overwrite f p x p = x := if_pos rfl

theorem overwrite_other {p q : Nat} {x : α} (other : q ≠ p) : overwrite f p x q = f q := if_neg other

/-! What overwriting means for the elements of a window, listed in order. -/

theorem overwrite_set {x : α} {n i : Nat} :
    ((List.range' first n).map f).set i x = (List.range' first n).map (overwrite f (first + i) x) := by
  apply List.ext_getElem
  · simp
  · intro j _ _
    simp only [List.getElem_set, List.getElem_map, List.getElem_range', overwrite]
    split <;> split <;> first | rfl | omega

theorem overwrite_append {x : α} {n : Nat} :
    (List.range' first n).map f ++ [x] =
      (List.range' first (n + 1)).map (overwrite f (first + n) x) := by
  rw [List.range'_1_concat, List.map_append, List.map_singleton, overwrite_same]
  congr 1
  apply List.map_congr_left
  intro q member
  rw [List.mem_range'_1] at member
  exact (overwrite_other (by omega)).symm

theorem overwrite_cons {x : α} {n : Nat} :
    x :: (List.range' (first + 1) n).map f = (List.range' first (n + 1)).map (overwrite f first x) := by
  rw [List.range'_succ, List.map_cons, overwrite_same]
  congr 1
  apply List.map_congr_left
  intro q member
  rw [List.mem_range'_1] at member
  exact (overwrite_other (by omega)).symm

theorem filled_zero : filled r f 0 first last =
    .leaf (first % r.size) ((List.range' first (last + 1 - first)).map f) := rfl

theorem filled_succ : filled r f (height + 1) first last =
    .interior (first / r.span (height + 1) % r.size) (row r f height first last) := rfl

/-- Only the elements inside of the window matter. -/
theorem filled_congr (same : ∀ p, first ≤ p → p ≤ last → f p = g p) :
    filled r f height first last = filled r g height first last := by
  induction height generalizing first last with
  | zero =>
    rw [filled_zero, filled_zero, List.map_congr_left]
    intro p member
    rw [List.mem_range'_1] at member
    exact same p (by omega) (by omega)
  | succ height ih =>
    rw [filled_succ, filled_succ, row, row]
    congr 1
    apply List.map_congr_left
    intro c _
    exact ih fun p low high => same p (by omega) (by omega)

@[simp] theorem length_row : (row r f height first last).length =
    last / r.span (height + 1) + 1 - first / r.span (height + 1) := by
  simp [row]

theorem getElem?_row {i : Nat}
    (used : i < last / r.span (height + 1) + 1 - first / r.span (height + 1)) :
    (row r f height first last)[i]? =
      some (part r f height first last (first / r.span (height + 1) + i)) := by
  simp [row, used]

theorem getElem?_row_slot {p : Nat} (left : first ≤ p) (right : p ≤ last) :
    (row r f height first last)[p / r.span (height + 1) - first / r.span (height + 1)]? =
      some (part r f height first last (p / r.span (height + 1))) := by
  have low := Nat.div_le_div_right (c := r.span (height + 1)) left
  have high := Nat.div_le_div_right (c := r.span (height + 1)) right
  rw [getElem?_row (by omega), Nat.add_sub_of_le low]

theorem eq_row {children : List (Node α)}
    (length : children.length = last / r.span (height + 1) + 1 - first / r.span (height + 1))
    (parts : ∀ i, i < last / r.span (height + 1) + 1 - first / r.span (height + 1) →
      children[i]? = some (part r f height first last (first / r.span (height + 1) + i))) :
    children = row r f height first last := by
  apply List.ext_getElem?
  intro i
  by_cases used : i < last / r.span (height + 1) + 1 - first / r.span (height + 1)
  · rw [parts i used, getElem?_row used]
  · rw [List.getElem?_eq_none (by omega), List.getElem?_eq_none (by rw [length_row]; omega)]

/-! How the parts of a row depend on its window and its elements: only the two outermost parts see where
the window ends, and each part sees its own elements only. -/

theorem part_first : part r f height first last (first / r.span (height + 1)) =
    filled r f height first
      (min last (first / r.span (height + 1) * r.span (height + 1) + (r.span (height + 1) - 1))) := by
  rw [part, Nat.max_eq_left (Nat.div_mul_le_self ..)]

theorem part_last : part r f height first last (last / r.span (height + 1)) =
    filled r f height (max first (last / r.span (height + 1) * r.span (height + 1))) last := by
  rw [part, Nat.min_eq_left (Radix.slot_le_iff.mp (Nat.le_refl _))]

theorem part_left {p q : Nat} (behind : p / r.span (height + 1) < c) (before : q ≤ p + 1) :
    part r f height q last c = part r f height p last c := by
  rw [Nat.div_lt_iff_lt_mul (r.span_pos _)] at behind
  rw [part, part, Nat.max_eq_right (by omega), Nat.max_eq_right (by omega)]

theorem part_right {p q : Nat} (full : c < (p + 1) / r.span (height + 1)) (further : p ≤ q) :
    part r f height first p c = part r f height first q c := by
  have positive := r.span_pos (height + 1)
  rw [← Nat.succ_le_iff, Radix.le_slot_iff, Nat.succ_mul] at full
  rw [part, part, Nat.min_eq_right (by omega), Nat.min_eq_right (by omega)]

theorem part_congr (same : ∀ p, p / r.span (height + 1) = c → f p = g p) :
    part r f height first last c = part r g height first last c := by
  apply filled_congr
  intro p low high
  exact same p (Radix.slot_eq_iff.mpr ⟨by omega, by omega⟩)

theorem part_overwrite_other {p : Nat} {x : α} (other : p / r.span (height + 1) ≠ c) :
    part r (overwrite f p x) height first last c = part r f height first last c := by
  apply part_congr
  rintro q rfl
  exact overwrite_other fun same => other (by rw [same])

theorem filled_overwrite_self {p : Nat} {x : α} :
    filled r (overwrite f p x) height p p = filled r (fun _ => x) height p p := by
  apply filled_congr
  intro q low high
  rw [Nat.le_antisymm high low, overwrite_same]

theorem row_single
    (same : first / r.span (height + 1) = last / r.span (height + 1)) :
    row r f height first last = [filled r f height first last] := by
  have low := Radix.slot_eq_iff.mp (rfl : first / r.span (height + 1) = _)
  have high := Radix.slot_eq_iff.mp same.symm
  have one : last / r.span (height + 1) + 1 - first / r.span (height + 1) = 1 := by omega
  rw [row, one, List.range'_one, List.map_cons, List.map_nil, part, Nat.max_eq_left (by omega),
    Nat.min_eq_left (by omega)]

/-- A longer row is its first node, filled to the end, and the row of the rest of the window. -/
theorem row_cons (more : first / r.span (height + 1) < last / r.span (height + 1)) :
    row r f height first last =
      filled r f height first
        (first / r.span (height + 1) * r.span (height + 1) + (r.span (height + 1) - 1)) ::
      row r f height ((first / r.span (height + 1) + 1) * r.span (height + 1)) last := by
  have positive := r.span_pos (height + 1)
  have slot := Radix.slot_eq_iff.mp (rfl : first / r.span (height + 1) = _)
  have next := Radix.le_slot_iff.mp more
  have start : (first / r.span (height + 1) + 1) * r.span (height + 1) / r.span (height + 1) =
      first / r.span (height + 1) + 1 := Nat.mul_div_cancel _ positive
  have count : last / r.span (height + 1) + 1 - first / r.span (height + 1) =
      (last / r.span (height + 1) + 1 - (first / r.span (height + 1) + 1)) + 1 := by omega
  rw [Nat.succ_mul] at next
  rw [row, row, start, count, List.range'_succ, List.map_cons]
  congr 1
  · rw [part, Nat.max_eq_left (by omega), Nat.min_eq_right (by omega)]
  · apply List.map_congr_left
    intro c member
    rw [List.mem_range'_1] at member
    have left := Nat.mul_le_mul_right (r.span (height + 1)) member.1
    rw [part, part, Nat.max_eq_right (by rw [Nat.succ_mul] at left; omega), Nat.max_eq_right left]

/-- Rows are built from the right: a last node, and full nodes before it. -/
theorem row_induction (r : Radix) (height : Nat) {motive : (first : Nat) → first ≤ last → Prop}
    (single : ∀ first (ordered : first ≤ last),
      first / r.span (height + 1) = last / r.span (height + 1) → motive first ordered)
    (cons : ∀ first (ordered : first ≤ last)
      (next : (first / r.span (height + 1) + 1) * r.span (height + 1) ≤ last),
      first / r.span (height + 1) < last / r.span (height + 1) →
      motive ((first / r.span (height + 1) + 1) * r.span (height + 1)) next → motive first ordered)
    (first : Nat) (ordered : first ≤ last) : motive first ordered := by
  have monotone := Nat.div_le_div_right (c := r.span (height + 1)) ordered
  by_cases same : first / r.span (height + 1) = last / r.span (height + 1)
  · exact single first ordered same
  · have more : first / r.span (height + 1) < last / r.span (height + 1) := by omega
    exact cons first ordered (Radix.le_slot_iff.mp more) more (row_induction r height single cons _ _)
termination_by last / r.span (height + 1) - first / r.span (height + 1)
decreasing_by
  rw [Nat.mul_div_cancel _ (r.span_pos _)]
  omega

/-- Moving a window by whole nodes changes nothing in its tree. -/
theorem filled_shift (nodes : Nat) :
    filled r (fun p => f (p - nodes * r.span (height + 1))) height
      (first + nodes * r.span (height + 1)) (last + nodes * r.span (height + 1)) =
    filled r f height first last := by
  induction height generalizing first last nodes with
  | zero =>
    have count : last + nodes * r.span 1 + 1 - (first + nodes * r.span 1) = last + 1 - first := by omega
    have digit : (first + nodes * r.span 1) % r.size = first % r.size := by
      rw [Radix.span_succ, Radix.span_zero, Nat.one_mul, Nat.add_mul_mod_self_right]
    rw [filled_zero, filled_zero, count, digit, Nat.add_comm first, ← List.map_add_range', List.map_map]
    congr 2
    funext p
    simp
  | succ height ih =>
    have whole : nodes * r.span (height + 1 + 1) = nodes * r.size * r.span (height + 1) := by
      rw [r.span_succ (height + 1), Nat.mul_comm (r.span _), Nat.mul_assoc]
    have slot (p : Nat) : (p + nodes * r.size * r.span (height + 1)) / r.span (height + 1) =
        p / r.span (height + 1) + nodes * r.size := Nat.add_mul_div_right _ _ (r.span_pos _)
    have count : last / r.span (height + 1) + nodes * r.size + 1 -
        (first / r.span (height + 1) + nodes * r.size) =
        last / r.span (height + 1) + 1 - first / r.span (height + 1) := by omega
    rw [filled_succ, filled_succ, whole, slot, Nat.add_mul_mod_self_right, row, row, slot, slot, count,
      Nat.add_comm (first / _), ← List.map_add_range', List.map_map]
    congr 1
    apply List.map_congr_left
    intro c _
    rw [Function.comp_apply, part, part, Nat.add_mul, ← ih (nodes * r.size)]
    congr 1 <;> omega

theorem parentOf_filled_zero (ordered : first ≤ last) (below : last < r.span (height + 1)) :
    parentOf (filled r f height first last) 0 = filled r f (height + 1) first last := by
  have low : first / r.span (height + 1) = 0 := Nat.div_eq_of_lt (by omega)
  have high : last / r.span (height + 1) = 0 := Nat.div_eq_of_lt below
  rw [filled_succ, row_single (low.trans high.symm), low, Nat.zero_mod, parentOf]

/-- A level on top that adds room before the window: the window moves to the last slot. -/
theorem parentOf_filled_last (ordered : first ≤ last) (below : last < r.span (height + 1)) :
    parentOf (filled r f height first last) (r.size - 1) =
      filled r (fun p => f (p - (r.size - 1) * r.span (height + 1))) (height + 1)
        (first + (r.size - 1) * r.span (height + 1)) (last + (r.size - 1) * r.span (height + 1)) := by
  have slot (p : Nat) (inside : p ≤ last) :
      (p + (r.size - 1) * r.span (height + 1)) / r.span (height + 1) = r.size - 1 := by
    rw [Nat.add_mul_div_right _ _ (r.span_pos _), Nat.div_eq_of_lt (by omega), Nat.zero_add]
  have digit : (r.size - 1) % r.size = r.size - 1 := Nat.mod_eq_of_lt (by have := r.size_pos; omega)
  rw [filled_succ, slot first ordered, digit,
    row_single ((slot first ordered).trans (slot last (Nat.le_refl _)).symm),
    filled_shift, parentOf]

end DigitTrie.Node
