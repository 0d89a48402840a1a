import DigitTrie.Node.Audit
import DigitTrie.Proofs.Shape

/-! The checker and the tree of a window. The tree of a window passes, and what passes is in order: the
local conditions on the two edges leave no room for a gap or a stray element anywhere. -/
namespace DigitTrie.Node

variable {r : Radix} {α : Type} {f : Nat → α} {node child : Node α} {children rest : List (Node α)}
  {slots : List α} {start count height level first last n : Nat} {onLeft onRight : Bool}

theorem auditSlots_eq_ok_iff : auditSlots r start count onLeft onRight = .ok () ↔
    count ≠ 0 ∧ start + count ≤ r.size ∧ (onLeft = true ∨ start = 0) ∧
      (onRight = true ∨ start + count = r.size) := by
  have small := r.size_le
  simp only [auditSlots, bind_eq_ok_iff, ensure_eq_ok_iff, Word.add_eq_ok_iff, Word.limit_eq]
  constructor
  · rintro ⟨_, used, _, ⟨_, rfl⟩, _, short, _, left, right⟩
    exact ⟨used, short, left, right⟩
  · rintro ⟨used, short, left, right⟩
    exact ⟨(), used, start + count, ⟨by omega, rfl⟩, (), short, (), left, right⟩

theorem audit_leaf : (leaf start slots).audit r level onLeft onRight = .ok n ↔
    level = 0 ∧ auditSlots r start slots.length onLeft onRight = .ok () ∧ slots.length = n := by
  simp only [audit, bind_eq_ok_iff, ensure_eq_ok_iff, pure, Except.pure, Except.ok.injEq]
  constructor
  · rintro ⟨_, bottom, _, checked, count⟩
    exact ⟨bottom, checked, count⟩
  · rintro ⟨bottom, checked, count⟩
    exact ⟨(), bottom, (), checked, count⟩

theorem audit_interior : (interior start children).audit r level onLeft onRight = .ok n ↔
    level ≠ 0 ∧ auditSlots r start children.length onLeft onRight = .ok () ∧ r.bits ≤ level ∧
      auditForest r children (level - r.bits) onLeft onRight = .ok n := by
  simp only [audit, bind_eq_ok_iff, ensure_eq_ok_iff, Word.sub_eq_ok_iff]
  constructor
  · rintro ⟨_, above, _, checked, _, ⟨lower, rfl⟩, below⟩
    exact ⟨above, checked, lower, below⟩
  · rintro ⟨above, checked, lower, below⟩
    exact ⟨(), above, (), checked, _, ⟨lower, rfl⟩, below⟩

theorem auditForest_cons : auditForest r (child :: rest) level onLeft onRight = .ok n ↔
    ∃ a b, child.audit r level onLeft (onRight && rest.isEmpty) = .ok a ∧
      auditForest r rest level false onRight = .ok b ∧ a + b = n := by
  simp [auditForest, bind_eq_ok_iff, pure, Except.pure]

theorem auditForest_row
    (nodes : ∀ first last onLeft onRight, r.Fits height first last →
      (onLeft = true ∨ first % r.span (height + 1) = 0) →
      (onRight = true ∨ (last + 1) % r.span (height + 1) = 0) →
      (filled r f height first last).audit r (r.level height) onLeft onRight = .ok (last + 1 - first))
    (first : Nat) (ordered : first ≤ last) (left : onLeft = true ∨ first % r.span (height + 1) = 0)
    (right : onRight = true ∨ (last + 1) % r.span (height + 1) = 0) :
    auditForest r (row r f height first last) (r.level height) onLeft onRight =
      .ok (last + 1 - first) := by
  induction first, ordered using row_induction r height generalizing onLeft with
  | single first ordered same =>
    rw [row_single same, auditForest_cons]
    exact ⟨_, 0, nodes first last _ _ ⟨ordered, same⟩ left (by simpa using right), rfl, rfl⟩
  | cons first ordered next more ih =>
    have room := r.span_pos (height + 1)
    have slot := Radix.slot_eq_iff.mp (rfl : first / r.span (height + 1) = _)
    have stop : (first / r.span (height + 1) * r.span (height + 1) + (r.span (height + 1) - 1)) /
        r.span (height + 1) = first / r.span (height + 1) := by
      rw [Radix.slot_eq_iff]; omega
    have full : first / r.span (height + 1) * r.span (height + 1) + (r.span (height + 1) - 1) + 1 =
        (first / r.span (height + 1) + 1) * r.span (height + 1) := by
      rw [Nat.succ_mul]; omega
    rw [row_cons more, auditForest_cons]
    refine ⟨_, _, nodes first _ onLeft _ ⟨slot.2, stop.symm⟩ left ?_, ih (.inr ?_), ?_⟩
    · rw [full, Nat.mul_mod_left]; exact .inr rfl
    · rw [Nat.mul_mod_left]
    · omega

theorem auditSlots_filled (fits : r.Fits height first last)
    (left : onLeft = true ∨ first % r.span (height + 1) = 0)
    (right : onRight = true ∨ (last + 1) % r.span (height + 1) = 0) :
    auditSlots r (first / r.span height % r.size) (last / r.span height + 1 - first / r.span height)
      onLeft onRight = .ok () := by
  have ordered := Nat.div_le_div_right (c := r.span height) fits.ordered
  have distance := fits.digit_le
  rw [auditSlots_eq_ok_iff]
  refine ⟨by omega, fits.digit_add_count_le,
    left.imp_right fun aligned => (Radix.digit_of_aligned aligned).1,
    right.imp_right fun aligned => ?_⟩
  have := (Radix.digit_before_aligned aligned).1
  omega

/-- The tree of a window passes as a subtree, if it is filled to the sides that are no edges. -/
theorem audit_filled (fits : r.Fits height first last)
    (left : onLeft = true ∨ first % r.span (height + 1) = 0)
    (right : onRight = true ∨ (last + 1) % r.span (height + 1) = 0) :
    (filled r f height first last).audit r (r.level height) onLeft onRight =
      .ok (last + 1 - first) := by
  have checked := auditSlots_filled fits left right
  induction height generalizing first last onLeft onRight with
  | zero =>
    rw [filled_zero, audit_leaf]
    simpa using checked
  | succ height ih =>
    rw [filled_succ, audit_interior, Radix.level_succ_sub_bits, length_row]
    refine ⟨Radix.level_succ_ne_zero, checked, Radix.bits_le_level_succ, ?_⟩
    exact auditForest_row
      (fun _ _ _ _ fits left right => ih fits left right (auditSlots_filled fits left right))
      first fits.ordered (left.imp_right fun aligned => (Radix.digit_of_aligned aligned).2)
      (right.imp_right fun aligned => (Radix.digit_before_aligned aligned).2)

/-! The first and the last index that a tree stores, counted from the first index below it. -/

theorem shiftLeft_digit {p : Nat} (word : r.level height < 64) (small : p < 2 ^ 64) :
    Word.shiftLeft (p / r.span height % r.size) (r.level height) =
      .ok (p / r.span height % r.size * r.span height) := by
  refine Word.shiftLeft_of_lt word (Nat.lt_of_le_of_lt ?_ small)
  exact Nat.le_trans (Nat.mul_le_mul_right _ (Nat.mod_le _ _)) (Nat.div_mul_le_self ..)

theorem word_add_digits {p : Nat} (small : p < 2 ^ 64) :
    Word.add (p / r.span (height + 1) % r.size * r.span (height + 1)) (p % r.span (height + 1)) =
      .ok (p % r.span (height + 1 + 1)) := by
  have split : p / r.span (height + 1) % r.size * r.span (height + 1) + p % r.span (height + 1) =
      p % r.span (height + 1 + 1) := by
    rw [r.span_succ (height + 1), Nat.mod_mul, Nat.mul_comm, Nat.add_comm]
  exact Word.add_of_lt split (Nat.lt_of_le_of_lt (Nat.mod_le _ _) small)

theorem row_head (ordered : first ≤ last) : ∃ stop rest, r.Fits height first stop ∧
    row r f height first last = filled r f height first stop :: rest := by
  have monotone := Nat.div_le_div_right (c := r.span (height + 1)) ordered
  by_cases same : first / r.span (height + 1) = last / r.span (height + 1)
  · exact ⟨last, [], ⟨ordered, same⟩, row_single same⟩
  · have slot := Radix.slot_eq_iff.mp (rfl : first / r.span (height + 1) = _)
    have more : first / r.span (height + 1) < last / r.span (height + 1) := by omega
    refine ⟨_, _, ⟨slot.2, ?_⟩, row_cons more⟩
    rw [eq_comm, Radix.slot_eq_iff]; omega

theorem row_ne_nil (ordered : first ≤ last) : row r f height first last ≠ [] := by
  obtain ⟨_, _, _, eq⟩ := row_head (f := f) ordered
  rw [eq]
  exact List.cons_ne_nil _ _

theorem firstIndex_filled (fits : r.Fits height first last) (word : r.level height < 64)
    (small : first < 2 ^ 64) :
    (filled r f height first last).firstIndex r (r.level height) =
      .ok (first % r.span (height + 1)) := by
  induction height generalizing first last with
  | zero => rw [filled_zero, firstIndex, Radix.span_succ, Radix.span_zero, Nat.one_mul]; rfl
  | succ height ih =>
    have lower : r.level height < 64 := Nat.lt_trans Radix.level_lt_succ word
    have digit := shiftLeft_digit word small
    obtain ⟨stop, rest, inner, eq⟩ := row_head (f := f) fits.ordered
    rw [filled_succ, eq, firstIndex]
    simp only [bind, Except.bind, digit, Radix.sub_bits_level, ih inner lower small]
    exact word_add_digits small

theorem lastIndexOfForest_cons (used : rest ≠ []) :
    lastIndexOfForest r (child :: rest) level = lastIndexOfForest r rest level := by
  cases rest with
  | nil => exact absurd rfl used
  | cons next rest => rw [lastIndexOfForest]

theorem lastIndexOfForest_row
    (nodes : ∀ first, r.Fits height first last →
      (filled r f height first last).lastIndex r (r.level height) = .ok (last % r.span (height + 1)))
    (first : Nat) (ordered : first ≤ last) :
    lastIndexOfForest r (row r f height first last) (r.level (height + 1)) =
      .ok (last % r.span (height + 1)) := by
  induction first, ordered using row_induction r height with
  | single first ordered same =>
    rw [row_single same, lastIndexOfForest, Radix.sub_bits_level]
    exact nodes first ⟨ordered, same⟩
  | cons first ordered next more ih =>
    rw [row_cons more, lastIndexOfForest_cons (row_ne_nil next), ih]

theorem last_slot (fits : r.Fits height first last) :
    Word.add (first / r.span height % r.size) (last / r.span height + 1 - first / r.span height) =
        .ok (last / r.span height % r.size + 1) ∧
      Word.sub (last / r.span height % r.size + 1) 1 = .ok (last / r.span height % r.size) := by
  have ordered := Nat.div_le_div_right (c := r.span height) fits.ordered
  have distance := fits.digit_le
  have count := fits.digit_add_count_le
  have size := r.size_le
  exact ⟨Word.add_of_lt (by omega) (by omega), Word.sub_of_le (Nat.le_add_left 1 _)⟩

theorem lastIndex_filled (fits : r.Fits height first last) (word : r.level height < 64)
    (small : last < 2 ^ 64) :
    (filled r f height first last).lastIndex r (r.level height) =
      .ok (last % r.span (height + 1)) := by
  obtain ⟨add, sub⟩ := last_slot fits
  induction height generalizing first last with
  | zero =>
    simp only [Radix.span_zero, Nat.div_one] at add sub
    rw [filled_zero, lastIndex, List.length_map, List.length_range', add]
    simp only [bind, Except.bind, sub]
    rw [Radix.span_succ, Radix.span_zero, Nat.one_mul]
  | succ height ih =>
    have lower : r.level height < 64 := Nat.lt_trans Radix.level_lt_succ word
    have digit := shiftLeft_digit word small
    have below := lastIndexOfForest_row (f := f)
      (fun first inner => ih inner lower small (last_slot inner).1 (last_slot inner).2) first fits.ordered
    rw [filled_succ, lastIndex, length_row, add]
    simp only [bind, Except.bind, sub, digit, below]
    exact word_add_digits small

end DigitTrie.Node
