import DigitTrie.Node.Entries
import DigitTrie.Node.Lookup
import DigitTrie.Proofs.Filled

/-! What the tree of a window holds. It lists one entry for each index of the window, in order, and a
walk by digits ends in the leaf that has the index. -/
namespace DigitTrie.Node

variable {r : Radix} {α : Type} {f : Nat → α} {child : Node α} {children rest : List (Node α)}
  {height first last base start p : Nat}

/-! Entries at the levels of a trie, where the indices below a slot make a span. -/

theorem entries_interior : (interior start children).entries r (r.level height) base =
    forestEntries r children (r.level height) (base + start * r.span height) := by
  rw [entries, Nat.shiftLeft_eq]
  rfl

theorem forestEntries_cons : forestEntries r (child :: rest) (r.level (height + 1)) base =
    child.entries r (r.level height) base ++
      forestEntries r rest (r.level (height + 1)) (base + r.span (height + 1)) := by
  rw [forestEntries, Radix.level_succ_sub_bits, Radix.one_shiftLeft_level]

theorem entries_leaf :
    (filled r f 0 first last).entries r (r.level 0) (first / r.span 1 * r.span 1) =
      (List.range' first (last + 1 - first)).map fun p => (p, f p) := by
  have split := Nat.div_add_mod' first r.size
  rw [Radix.span_succ, Radix.span_zero, Nat.one_mul]
  apply List.ext_getElem
  · simp [filled_zero, entries]
  · intro i _ _
    simp only [filled_zero, entries, List.getElem_mapIdx, List.getElem_map, List.getElem_range',
      Nat.one_mul, Prod.mk.injEq, and_true]
    omega

theorem forestEntries_row
    (nodes : ∀ first last, r.Fits height first last →
      (filled r f height first last).entries r (r.level height)
        (first / r.span (height + 1) * r.span (height + 1)) =
      (List.range' first (last + 1 - first)).map fun p => (p, f p))
    (first : Nat) (ordered : first ≤ last) :
    forestEntries r (row r f height first last) (r.level (height + 1))
        (first / r.span (height + 1) * r.span (height + 1)) =
      (List.range' first (last + 1 - first)).map fun p => (p, f p) := by
  induction first, ordered using row_induction r height with
  | single first ordered same =>
    rw [row_single same, forestEntries_cons, forestEntries, nodes first last ⟨ordered, same⟩,
      List.append_nil]
  | cons first ordered next more ih =>
    have positive := r.span_pos (height + 1)
    have slot := Radix.slot_eq_iff.mp (rfl : first / r.span (height + 1) = _)
    have stop : (first / r.span (height + 1) * r.span (height + 1) + (r.span (height + 1) - 1)) /
        r.span (height + 1) = first / r.span (height + 1) := by
      rw [Radix.slot_eq_iff]; omega
    rw [Nat.mul_div_cancel _ positive] at ih
    rw [row_cons more, forestEntries_cons, nodes _ _ ⟨slot.2, stop.symm⟩, ← Nat.succ_mul, ih,
      ← List.map_append]
    congr 1
    rw [Nat.succ_mul] at next ⊢
    have size : last + 1 - first =
        (first / r.span (height + 1) * r.span (height + 1) + (r.span (height + 1) - 1) + 1 - first) +
        (last + 1 - (first / r.span (height + 1) * r.span (height + 1) + r.span (height + 1))) := by
      omega
    rw [size, ← List.range'_append_1]
    congr 2
    omega

theorem entries_filled (fits : r.Fits height first last) :
    (filled r f height first last).entries r (r.level height)
        (first / r.span (height + 1) * r.span (height + 1)) =
      (List.range' first (last + 1 - first)).map fun p => (p, f p) := by
  induction height generalizing first last with
  | zero => exact entries_leaf
  | succ height ih =>
    have start : first / r.span (height + 1 + 1) * r.span (height + 1 + 1) +
        first / r.span (height + 1) % r.size * r.span (height + 1) =
        first / r.span (height + 1) * r.span (height + 1) := by
      have split := Nat.div_add_mod' (first / r.span (height + 1)) r.size
      have whole : first / r.span (height + 1 + 1) = first / r.span (height + 1) / r.size := by
        rw [r.span_succ (height + 1), Nat.div_div_eq_div_mul]
      rw [whole, r.span_succ (height + 1), Nat.mul_comm (r.span _), ← Nat.mul_assoc, ← Nat.add_mul, split]
    rw [filled_succ, entries_interior, start]
    exact forestEntries_row (fun _ _ => ih) first fits.ordered

theorem toList_filled (fits : r.Fits height first last) :
    (filled r f height first last).toList = (List.range' first (last + 1 - first)).map f := by
  rw [← map_snd_entries r _ (r.level height), entries_filled fits, List.map_map]
  rfl

/-- The leaf of an index, as far as it lies inside of a window. -/
def leafAt (r : Radix) (f : Nat → α) (first last p : Nat) : Leaf α :=
  let low := max first (p / r.size * r.size)
  ⟨low % r.size, (List.range' low (min last (p / r.size * r.size + (r.size - 1)) + 1 - low)).map f⟩

theorem leafAt_child (inside : p / r.span (height + 1) = c) :
    leafAt r f (max first (c * r.span (height + 1)))
      (min last (c * r.span (height + 1) + (r.span (height + 1) - 1))) p = leafAt r f first last p := by
  have bounds := Radix.slot_eq_iff.mp inside
  have spans := r.span_succ height
  have positive := r.span_pos (height + 1)
  have low : c * r.span (height + 1) ≤ p / r.size * r.size := by
    rw [spans, ← Nat.mul_assoc] at bounds ⊢
    exact Nat.mul_le_mul_right _ ((Nat.le_div_iff_mul_le r.size_pos).mpr bounds.1)
  have high : p / r.size * r.size + (r.size - 1) ≤
      c * r.span (height + 1) + (r.span (height + 1) - 1) := by
    have below : p / r.size < (c + 1) * r.span height := by
      rw [Nat.div_lt_iff_lt_mul r.size_pos, Nat.mul_assoc, ← spans, Nat.succ_mul]
      omega
    have scaled := Nat.mul_le_mul_right r.size below
    rw [Nat.mul_assoc, ← spans, Nat.succ_mul, Nat.succ_mul] at scaled
    have := r.size_pos
    omega
  rw [leafAt, leafAt, Nat.max_assoc, Nat.max_eq_right low, Nat.min_assoc, Nat.min_eq_right high]

theorem findLeaf_filled (fits : r.Fits height first last) (left : first ≤ p) (right : p ≤ last)
    (word : r.level height < 64) :
    (filled r f height first last).findLeaf r (r.level height) p =
      .ok (some (leafAt r f first last p)) := by
  induction height generalizing first last with
  | zero =>
    have same := fits.sameNode
    have low := fits.part (Nat.le_refl _) left right
    simp only [Radix.span_succ, Radix.span_zero, Nat.one_mul] at same low
    have here := low.sameNode
    simp only [Radix.span_succ, Radix.span_zero, Nat.one_mul] at here
    have down := Nat.div_mul_le_self first r.size
    have up := Nat.lt_div_mul_add (a := last) r.size_pos
    rw [← same] at up
    rw [filled_zero, findLeaf, if_pos Radix.level_zero, leafAt, ← here, Nat.max_eq_left down,
      Nat.min_eq_left (by omega)]
  | succ height ih =>
    have low := Nat.div_le_div_right (c := r.span (height + 1)) left
    have high := Nat.div_le_div_right (c := r.span (height + 1)) right
    have digits := (fits.part (Nat.le_refl _) left right).digit_le
    have bits : r.bits ≤ r.level (height + 1) := by rw [Radix.level_succ]; omega
    have below : r.level (height + 1) - r.bits = r.level height := by rw [Radix.level_succ]; omega
    have slots := Radix.slot_eq_iff.mp (rfl : p / r.span (height + 1) = _)
    have found : Slots.at? (row r f height first last) (first / r.span (height + 1) % r.size)
        (p / r.span (height + 1) % r.size) =
        some (part r f height first last (p / r.span (height + 1))) := by
      rw [Slots.at?_of_le digits.1, digits.2, getElem?_row_slot left right]
    rw [filled_succ, findLeaf, Radix.digit_level word]
    simp only [bind, Except.bind, found, if_pos bits, below]
    rw [part, ih (Radix.Fits.child fits.ordered low high) (by omega) (by omega) (by omega),
      leafAt_child rfl]

theorem leafAt_slot (r : Radix) (f : Nat → α) (last : Nat) (left : first ≤ p) :
    (leafAt r f first last p).start ≤ r.lastDigit p ∧
      r.lastDigit p - (leafAt r f first last p).start = p - max first (p / r.size * r.size) := by
  have positive := r.size_pos
  have down := Nat.div_mul_le_self p r.size
  have up := Nat.lt_div_mul_add (a := p) positive
  have fits : r.Fits 0 (max first (p / r.size * r.size)) p := by
    refine ⟨by omega, ?_⟩
    rw [Radix.slot_eq_iff]
    simp only [Radix.span_succ, Radix.span_zero, Nat.one_mul]
    omega
  exact fits.lastDigit_le

/-- What a leaf holds from an index on: up to the end of the leaf, or of the window. -/
theorem drop_leafAt (left : first ≤ p) (right : p ≤ last) :
    (leafAt r f first last p).slots.drop (r.lastDigit p - (leafAt r f first last p).start) =
      (List.range' p (min (r.size - p % r.size) (last + 1 - p))).map f := by
  obtain ⟨-, slot⟩ := leafAt_slot r f last left
  have split := Nat.div_add_mod' p r.size
  have bound := Nat.mod_lt p r.size_pos
  rw [slot, leafAt, ← List.map_drop, List.drop_range', Nat.mul_one]
  congr 2 <;> omega

theorem at?_leafAt (left : first ≤ p) (right : p ≤ last) :
    (leafAt r f first last p).at? (r.lastDigit p) = some (f p) := by
  have up := Nat.lt_div_mul_add (a := p) r.size_pos
  have down := Nat.div_mul_le_self p r.size
  obtain ⟨le, slot⟩ := leafAt_slot r f last left
  rw [Leaf.at?, Slots.at?_of_le le, slot, leafAt, List.getElem?_map, List.getElem?_range' (by omega)]
  simp only [Option.map_some, Nat.one_mul]
  congr 2
  omega

theorem lookup_filled (fits : r.Fits height first last) (left : first ≤ p) (right : p ≤ last)
    (word : r.level height < 64) :
    (filled r f height first last).lookup r (r.level height) p = .ok (some (f p)) := by
  rw [lookup, findLeaf_filled fits left right word]
  simp only [bind, Except.bind]
  rw [at?_leafAt left right]
  rfl

end DigitTrie.Node
