import DigitTrie.Node.Edit
import DigitTrie.Proofs.Filled

/-! Editing the tree of a window. Each edit gives the tree of another window or of other elements, and
none of them faults as long as the window stays below one node. -/
namespace DigitTrie.Node

variable {r : Radix} {α : Type} {f : Nat → α} {x : α} {height first last p : Nat}

theorem editBelow_leaf {change : Edit α} {start : Nat} {slots : List α} :
    (leaf start slots).editBelow r change (r.level 0) p =
      change.applyToLeaf r start slots (p % r.size) := by
  rw [editBelow, if_pos Radix.level_zero, Radix.lastDigit]

theorem editBelow_interior {change : Edit α} {start : Nat} {children : List (Node α)}
    {opened : Opened α} {child edited : Node α} (word : r.level (height + 1) < 64)
    (opens : change.openNode r start children (p / r.span (height + 1) % r.size)
      (r.level (height + 1)) = .ok opened)
    (found : opened.children[opened.slot]? = some child)
    (below : child.editBelow r change (r.level height) p = .ok edited) :
    (interior start children).editBelow r change (r.level (height + 1)) p =
      .ok (.interior opened.start (opened.children.set opened.slot edited)) := by
  have get : Slots.get opened.children opened.slot = .ok child := Slots.get_eq_ok_iff.mpr found
  rw [editBelow, if_neg Radix.level_succ_ne_zero, Radix.digit_level word]
  simp only [bind, Except.bind, opens, get, if_pos Radix.bits_le_level_succ,
    Radix.level_succ_sub_bits, below]
  rfl

theorem edit_eq_ok_iff {change : Edit α} {node result : Node α} (word : r.level height < 64) :
    node.edit r change (r.level height) p = .ok result ↔
      p < r.span (height + 1) ∧ node.editBelow r change (r.level height) p = .ok result := by
  rw [edit, Radix.upperDigits_level word, ← Radix.shiftRight_level_lt_iff, Nat.shiftRight_eq_div_pow]
  constructor
  · intro edited
    obtain ⟨_, digit, checked⟩ := bind_eq_ok_iff.mp edited
    cases digit
    obtain ⟨_, inside, below⟩ := bind_eq_ok_iff.mp checked
    exact ⟨ensure_eq_ok_iff.mp inside, below⟩
  · rintro ⟨inside, below⟩
    exact bind_eq_ok_iff.mpr ⟨_, rfl, bind_eq_ok_iff.mpr ⟨(), ensure_eq_ok_iff.mpr inside, below⟩⟩

/-- A step towards the tree of a window: the opened node has the slots of the window in use, the child on
the path becomes the part below its slot, and the children off the path are parts as they stand. -/
theorem editBelow_eq_filled {change : Edit α} {start low high slot : Nat}
    {children old : List (Node α)} {child : Node α} (word : r.level (height + 1) < 64)
    (opens : change.openNode r start old (p / r.span (height + 1) % r.size) (r.level (height + 1)) =
      .ok ⟨low / r.span (height + 1) % r.size, children, slot⟩)
    (length : children.length = high / r.span (height + 1) + 1 - low / r.span (height + 1))
    (path : low / r.span (height + 1) + slot = p / r.span (height + 1))
    (found : children[slot]? = some child)
    (below : child.editBelow r change (r.level height) p =
      .ok (part r f height low high (p / r.span (height + 1))))
    (others : ∀ i, i ≠ slot → i < children.length →
      children[i]? = some (part r f height low high (low / r.span (height + 1) + i))) :
    (interior start old).editBelow r change (r.level (height + 1)) p =
      .ok (filled r f (height + 1) low high) := by
  obtain ⟨inside, -⟩ := List.getElem?_eq_some_iff.mp found
  rw [editBelow_interior word opens found below, filled_succ]
  dsimp only
  congr 2
  apply eq_row
  · rw [List.length_set, length]
  · intro i used
    by_cases here : slot = i
    · subst here
      rw [List.getElem?_set_self inside, path]
    · rw [List.getElem?_set_ne here, others i (Ne.symm here) (by omega)]

theorem emptyBelow_level :
    emptyBelow r (r.level (height + 1)) = .ok (empty (r.level height) : Node α) := by
  rw [emptyBelow, Radix.sub_bits_level]
  rfl

theorem editBelow_replace (fits : r.Fits height first last) (left : first ≤ p) (right : p ≤ last)
    (word : r.level height < 64) :
    (filled r f height first last).editBelow r (.replace x) (r.level height) p =
      .ok (filled r (overwrite f p x) height first last) := by
  induction height generalizing first last with
  | zero =>
    have digits := (fits.part (Nat.le_refl _) left right).lastDigit_le
    have set : Slots.set ((List.range' first (last + 1 - first)).map f) (p - first) x =
        .ok ((List.range' first (last + 1 - first)).map (overwrite f p x)) := by
      rw [Slots.set_eq_ok_iff, overwrite_set, Nat.add_sub_of_le left]
      exact ⟨by rw [List.length_map, List.length_range']; omega, rfl⟩
    rw [filled_zero, editBelow_leaf, Edit.applyToLeaf, Word.sub_of_le digits.1, digits.2]
    simp only [bind, Except.bind, set]
    rfl
  | succ height ih =>
    have low := Nat.div_le_div_right (c := r.span (height + 1)) left
    have high := Nat.div_le_div_right (c := r.span (height + 1)) right
    have digits := (fits.part (Nat.le_refl _) left right).digit_le
    have slot := Radix.slot_eq_iff.mp (rfl : p / r.span (height + 1) = _)
    have below := ih (Radix.Fits.child fits.ordered low high) (by omega) (by omega)
      (Nat.lt_trans Radix.level_lt_succ word)
    have opens : (Edit.replace x).openNode r (first / r.span (height + 1) % r.size)
        (row r f height first last) (p / r.span (height + 1) % r.size) (r.level (height + 1)) =
        .ok ⟨first / r.span (height + 1) % r.size, row r f height first last,
          p / r.span (height + 1) - first / r.span (height + 1)⟩ := by
      rw [Edit.openNode, Word.sub_of_le digits.1, digits.2]
      rfl
    refine editBelow_eq_filled word opens length_row (Nat.add_sub_of_le low)
      (getElem?_row_slot left right) below fun i other used => ?_
    rw [length_row] at used
    rw [getElem?_row used, part_overwrite_other (by omega)]

theorem editBelow_keepFrom (fits : r.Fits height first last) (left : first ≤ p) (right : p ≤ last)
    (word : r.level height < 64) :
    (filled r f height first last).editBelow r .keepFrom (r.level height) p =
      .ok (filled r f height p last) := by
  induction height generalizing first last with
  | zero =>
    have digits := (fits.part (Nat.le_refl _) left right).lastDigit_le
    have drop : Slots.dropFirst ((List.range' first (last + 1 - first)).map f) (p - first) =
        .ok ((List.range' p (last + 1 - p)).map f) := by
      rw [Slots.dropFirst_eq_ok_iff, ← List.map_drop, List.drop_range', Nat.mul_one,
        Nat.add_sub_of_le left]
      refine ⟨by rw [List.length_map, List.length_range']; omega, ?_⟩
      congr 2; omega
    rw [filled_zero, editBelow_leaf, Edit.applyToLeaf, Word.sub_of_le digits.1, digits.2]
    simp only [bind, Except.bind, drop]
    rfl
  | succ height ih =>
    have low := Nat.div_le_div_right (c := r.span (height + 1)) left
    have high := Nat.div_le_div_right (c := r.span (height + 1)) right
    have digits := (fits.part (Nat.le_refl _) left right).digit_le
    have slot := Radix.slot_eq_iff.mp (rfl : p / r.span (height + 1) = _)
    have below := ih (Radix.Fits.child fits.ordered low high) (by omega) (by omega)
      (Nat.lt_trans Radix.level_lt_succ word)
    have drop : Slots.dropFirst (row r f height first last)
        (p / r.span (height + 1) - first / r.span (height + 1)) =
        .ok ((row r f height first last).drop
          (p / r.span (height + 1) - first / r.span (height + 1))) := by
      rw [Slots.dropFirst_eq_ok_iff, length_row]
      exact ⟨by omega, rfl⟩
    have opens : (Edit.keepFrom : Edit α).openNode r (first / r.span (height + 1) % r.size)
        (row r f height first last) (p / r.span (height + 1) % r.size) (r.level (height + 1)) =
        .ok ⟨p / r.span (height + 1) % r.size, (row r f height first last).drop
          (p / r.span (height + 1) - first / r.span (height + 1)), 0⟩ := by
      rw [Edit.openNode, Word.sub_of_le digits.1, digits.2]
      simp only [bind, Except.bind, drop]
      rfl
    have found : ((row r f height first last).drop
        (p / r.span (height + 1) - first / r.span (height + 1)))[0]? =
        some (part r f height first last (p / r.span (height + 1))) := by
      rw [List.getElem?_drop, Nat.add_zero, getElem?_row_slot left right]
    refine editBelow_eq_filled word opens ?_ (Nat.add_zero _) found (below.trans ?_) fun i other used => ?_
    · rw [List.length_drop, length_row]; omega
    · rw [part_first]
    · rw [List.length_drop, length_row] at used
      rw [List.getElem?_drop, getElem?_row (by omega),
        part_left (p := p) (by omega) (Nat.le_succ_of_le left)]
      congr 2; omega

theorem editBelow_keepThrough (fits : r.Fits height first last) (left : first ≤ p) (right : p ≤ last)
    (word : r.level height < 64) :
    (filled r f height first last).editBelow r .keepThrough (r.level height) p =
      .ok (filled r f height first p) := by
  induction height generalizing first last with
  | zero =>
    have digits := (fits.part (Nat.le_refl _) left right).lastDigit_le
    have keep : Slots.keepFirst ((List.range' first (last + 1 - first)).map f) (p - first + 1) =
        .ok ((List.range' first (p + 1 - first)).map f) := by
      rw [Slots.keepFirst_eq_ok_iff, ← List.map_take, List.take_range'_of_length_ge (by omega)]
      refine ⟨by rw [List.length_map, List.length_range']; omega, ?_⟩
      congr 2; omega
    rw [filled_zero, editBelow_leaf, Edit.applyToLeaf, Word.sub_of_le digits.1, digits.2]
    simp only [bind, Except.bind, keep]
    rfl
  | succ height ih =>
    have low := Nat.div_le_div_right (c := r.span (height + 1)) left
    have high := Nat.div_le_div_right (c := r.span (height + 1)) right
    have digits := (fits.part (Nat.le_refl _) left right).digit_le
    have slot := Radix.slot_eq_iff.mp (rfl : p / r.span (height + 1) = _)
    have below := ih (Radix.Fits.child fits.ordered low high) (by omega) (by omega)
      (Nat.lt_trans Radix.level_lt_succ word)
    have keep : Slots.keepFirst (row r f height first last)
        (p / r.span (height + 1) - first / r.span (height + 1) + 1) =
        .ok ((row r f height first last).take
          (p / r.span (height + 1) - first / r.span (height + 1) + 1)) := by
      rw [Slots.keepFirst_eq_ok_iff, length_row]
      exact ⟨by omega, rfl⟩
    have opens : (Edit.keepThrough : Edit α).openNode r (first / r.span (height + 1) % r.size)
        (row r f height first last) (p / r.span (height + 1) % r.size) (r.level (height + 1)) =
        .ok ⟨first / r.span (height + 1) % r.size, (row r f height first last).take
          (p / r.span (height + 1) - first / r.span (height + 1) + 1),
          p / r.span (height + 1) - first / r.span (height + 1)⟩ := by
      rw [Edit.openNode, Word.sub_of_le digits.1, digits.2]
      simp only [bind, Except.bind, keep]
      rfl
    have found : ((row r f height first last).take
        (p / r.span (height + 1) - first / r.span (height + 1) + 1))[
          p / r.span (height + 1) - first / r.span (height + 1)]? =
        some (part r f height first last (p / r.span (height + 1))) := by
      rw [List.getElem?_take_of_lt (Nat.lt_succ_self _), getElem?_row_slot left right]
    refine editBelow_eq_filled word opens ?_ (Nat.add_sub_of_le low) found (below.trans ?_)
      fun i other used => ?_
    · rw [List.length_take, length_row]; omega
    · rw [part_last]
    · have further := Nat.div_le_div_right (c := r.span (height + 1)) (Nat.le_add_right p 1)
      rw [List.length_take, length_row] at used
      rw [List.getElem?_take_of_lt (by omega), getElem?_row (by omega),
        ← part_right (p := p) (by omega) right]

/-! A push may have to open new nodes. A node with no slot in use becomes the tree of a single index. -/

theorem pushBack_slots {slots : List α} (room : slots.length < r.size) :
    Slots.pushBack r slots x = .ok (slots ++ [x]) := Slots.pushBack_eq_ok_iff.mpr ⟨room, rfl⟩

theorem pushFront_slots {slots : List α} (room : slots.length < r.size) :
    Slots.pushFront r slots x = .ok (x :: slots) := Slots.pushFront_eq_ok_iff.mpr ⟨room, rfl⟩

theorem openNode_pushBack {start digit level : Nat} {children : List (Node α)} (le : start ≤ digit)
    (inside : digit - start < children.length) :
    (Edit.pushBack x).openNode r start children digit level = .ok ⟨start, children, digit - start⟩ := by
  have used : children.isEmpty = false := by
    rw [List.isEmpty_eq_false_iff, ← List.length_pos_iff]; omega
  rw [Edit.openNode]
  simp only [bind, Except.bind, used, Bool.false_eq_true, if_false, Word.sub_of_le le, ensure,
    if_pos (Nat.le_of_lt inside), if_neg (Nat.ne_of_lt inside)]
  rfl

theorem openNode_pushBack_new {start digit : Nat} {children : List (Node α)} (le : start ≤ digit)
    (next : digit - start = children.length) (used : 0 < children.length)
    (room : children.length < r.size) :
    (Edit.pushBack x).openNode r start children digit (r.level (height + 1)) =
      .ok ⟨start, children ++ [empty (r.level height)], digit - start⟩ := by
  have used : children.isEmpty = false := by
    rw [List.isEmpty_eq_false_iff, ← List.length_pos_iff]; omega
  have push := pushBack_slots (x := (empty (r.level height) : Node α)) room
  rw [Edit.openNode]
  simp only [bind, Except.bind, used, Bool.false_eq_true, if_false, Word.sub_of_le le, ensure, next,
    Nat.le_refl, if_true, emptyBelow_level, push]
  rfl

theorem openNode_pushFront {start digit level : Nat} {children : List (Node α)} (le : start ≤ digit)
    (used : 0 < children.length) :
    (Edit.pushFront x).openNode r start children digit level = .ok ⟨start, children, digit - start⟩ := by
  have used : children.isEmpty = false := by
    rw [List.isEmpty_eq_false_iff, ← List.length_pos_iff]; omega
  have here : digit + 1 ≠ start := by omega
  rw [Edit.openNode]
  simp only [bind, Except.bind, used, Bool.false_eq_true, if_false, if_neg here, Word.sub_of_le le]
  rfl

theorem openNode_pushFront_new {start digit : Nat} {children : List (Node α)} (next : digit + 1 = start)
    (used : 0 < children.length) (room : children.length < r.size) :
    (Edit.pushFront x).openNode r start children digit (r.level (height + 1)) =
      .ok ⟨digit, empty (r.level height) :: children, 0⟩ := by
  have used : children.isEmpty = false := by
    rw [List.isEmpty_eq_false_iff, ← List.length_pos_iff]; omega
  have push := pushFront_slots (x := (empty (r.level height) : Node α)) room
  rw [Edit.openNode]
  simp only [bind, Except.bind, used, Bool.false_eq_true, if_false, if_pos next, emptyBelow_level, push]
  rfl

theorem row_self : row r f height p p = [filled r f height p p] := row_single rfl

theorem editBelow_pushBack_empty (word : r.level height < 64) :
    (empty (r.level height)).editBelow r (.pushBack x) (r.level height) p =
      .ok (filled r (fun _ => x) height p p) := by
  induction height with
  | zero =>
    have bound := Nat.mod_lt p r.size_pos
    have add : Word.add (p % r.size) ([] : List α).length = .ok (p % r.size) := by
      have := r.size_le
      exact Word.add_of_lt rfl (by omega)
    have push : Slots.pushBack r [] x = .ok [x] := pushBack_slots r.size_pos
    rw [empty, if_pos Radix.level_zero, editBelow_leaf, Edit.applyToLeaf]
    simp only [bind, Except.bind, List.isEmpty_nil, if_true, add, ensure, push]
    rw [filled_zero, Nat.add_sub_cancel_left]
    rfl
  | succ height ih =>
    have push : Slots.pushBack r [] (empty (r.level height) : Node α) = .ok [empty (r.level height)] :=
      pushBack_slots r.size_pos
    have opens : (Edit.pushBack x).openNode r 0 [] (p / r.span (height + 1) % r.size)
        (r.level (height + 1)) =
        .ok ⟨p / r.span (height + 1) % r.size, [empty (r.level height)], 0⟩ := by
      rw [Edit.openNode]
      simp only [bind, Except.bind, List.isEmpty_nil, if_true, Word.sub_of_le (Nat.le_refl _), Nat.sub_self,
        ensure, List.length_nil, Nat.le_refl, emptyBelow_level, push]
      rfl
    have below := ih (Nat.lt_trans Radix.level_lt_succ word)
    rw [empty, if_neg Radix.level_succ_ne_zero, editBelow_interior word opens rfl below, filled_succ,
      row_self]
    rfl

theorem editBelow_pushFront_empty (word : r.level height < 64) :
    (empty (r.level height)).editBelow r (.pushFront x) (r.level height) p =
      .ok (filled r (fun _ => x) height p p) := by
  induction height with
  | zero =>
    have push : Slots.pushFront r [] x = .ok [x] := pushFront_slots r.size_pos
    rw [empty, if_pos Radix.level_zero, editBelow_leaf, Edit.applyToLeaf]
    simp only [bind, Except.bind, List.isEmpty_nil, true_or, if_true, ensure, push]
    rw [filled_zero, Nat.add_sub_cancel_left]
    rfl
  | succ height ih =>
    have opens : (Edit.pushFront x).openNode r 0 [] (p / r.span (height + 1) % r.size)
        (r.level (height + 1)) =
        .ok ⟨p / r.span (height + 1) % r.size, [empty (r.level height)], 0⟩ := by
      rw [Edit.openNode]
      simp only [bind, Except.bind, List.isEmpty_nil, if_true, emptyBelow_level]
      rfl
    have below := ih (Nat.lt_trans Radix.level_lt_succ word)
    rw [empty, if_neg Radix.level_succ_ne_zero, editBelow_interior word opens rfl below, filled_succ,
      row_self]
    rfl

theorem editBelow_pushBack (ordered : first ≤ last) (fits : r.Fits height first (last + 1))
    (word : r.level height < 64) :
    (filled r f height first last).editBelow r (.pushBack x) (r.level height) (last + 1) =
      .ok (filled r (overwrite f (last + 1) x) height first (last + 1)) := by
  induction height generalizing first last with
  | zero =>
    have digits := fits.lastDigit_le
    have bound := Nat.mod_lt (last + 1) r.size_pos
    have size := r.size_le
    have length : ((List.range' first (last + 1 - first)).map f).length = last + 1 - first := by simp
    have used : ((List.range' first (last + 1 - first)).map f).isEmpty = false := by
      rw [List.isEmpty_eq_false_iff, ← List.length_pos_iff]; omega
    have add : Word.add (first % r.size) (last + 1 - first) = .ok ((last + 1) % r.size) :=
      Word.add_of_lt (by omega) (by omega)
    have push : Slots.pushBack r ((List.range' first (last + 1 - first)).map f) x =
        .ok ((List.range' first (last + 1 - first)).map f ++ [x]) := pushBack_slots (by omega)
    have grown : (List.range' first (last + 1 - first)).map f ++ [x] =
        (List.range' first (last + 1 + 1 - first)).map (overwrite f (last + 1) x) := by
      rw [overwrite_append, Nat.add_sub_of_le (by omega)]
      congr 2; omega
    rw [filled_zero, editBelow_leaf, Edit.applyToLeaf]
    simp only [bind, Except.bind, used, Bool.false_eq_true, if_false, length, add, ensure, if_true,
      push, grown]
    rfl
  | succ height ih =>
    have digits := fits.digit_le
    have count := fits.digit_add_count_le
    have low := Nat.div_le_div_right (c := r.span (height + 1)) ordered
    have slot := Radix.slot_eq_iff.mp (rfl : last / r.span (height + 1) = _)
    have lower := Nat.lt_trans Radix.level_lt_succ word
    have near := r.slot_succ (height + 1) last
    -- Every old node but the one with the new index is a part of the longer window as it stands.
    have kept {i : Nat} (full : first / r.span (height + 1) + i < (last + 1) / r.span (height + 1)) :
        (row r f height first last)[i]? = some (part r (overwrite f (last + 1) x) height first (last + 1)
          (first / r.span (height + 1) + i)) := by
      rw [getElem?_row (by omega), part_right full (Nat.le_succ last),
        part_overwrite_other (Nat.ne_of_gt full)]
    rcases near with same | ⟨next, aligned⟩
    · have inner := Radix.Fits.child fits.ordered low (Nat.le_of_eq same.symm)
      rw [← same, Nat.min_eq_left (Radix.slot_le_iff.mp (Nat.le_refl _)), same] at inner
      have below := ih (by omega) inner lower
      have opens : (Edit.pushBack x).openNode r (first / r.span (height + 1) % r.size)
          (row r f height first last) ((last + 1) / r.span (height + 1) % r.size)
          (r.level (height + 1)) =
          .ok ⟨first / r.span (height + 1) % r.size, row r f height first last,
            last / r.span (height + 1) - first / r.span (height + 1)⟩ := by
        rw [openNode_pushBack digits.1 (by rw [length_row]; omega), digits.2, same]
      have found : (row r f height first last)[
          last / r.span (height + 1) - first / r.span (height + 1)]? = some (filled r f height
            (max first (last / r.span (height + 1) * r.span (height + 1))) last) := by
        rw [getElem?_row_slot ordered (Nat.le_refl _), part_last]
      refine editBelow_eq_filled word opens (by rw [length_row, same])
        ((Nat.add_sub_of_le low).trans same.symm) found (below.trans ?_) fun i other used => ?_
      · rw [part_last, same]
      · rw [length_row] at used
        exact kept (by omega)
    · have opens : (Edit.pushBack x).openNode r (first / r.span (height + 1) % r.size)
          (row r f height first last) ((last + 1) / r.span (height + 1) % r.size)
          (r.level (height + 1)) =
          .ok ⟨first / r.span (height + 1) % r.size, row r f height first last ++ [empty (r.level height)],
            (row r f height first last).length⟩ := by
        rw [openNode_pushBack_new digits.1 (by rw [length_row]; omega) (by rw [length_row]; omega)
          (by rw [length_row]; omega), digits.2, length_row, next]
      have below := editBelow_pushBack_empty (x := x) (p := last + 1) lower
      refine editBelow_eq_filled word opens ?_ (by rw [length_row]; omega) List.getElem?_concat_length
        (below.trans ?_) fun i other used => ?_
      · rw [List.length_append, length_row, List.length_singleton]; omega
      · rw [part_last, aligned, Nat.max_eq_right (by omega), filled_overwrite_self]
      · rw [List.length_append, List.length_singleton] at used
        rw [List.getElem?_append_left (by omega)]
        rw [length_row] at other used
        exact kept (by omega)

theorem editBelow_pushFront (ordered : p + 1 ≤ last) (fits : r.Fits height p last)
    (word : r.level height < 64) :
    (filled r f height (p + 1) last).editBelow r (.pushFront x) (r.level height) p =
      .ok (filled r (overwrite f p x) height p last) := by
  induction height generalizing p last with
  | zero =>
    have digits := (fits.part (Nat.le_refl p) (Nat.le_add_right p 1) ordered).lastDigit_le
    have count := fits.digit_add_count_le
    simp only [Radix.span_zero, Nat.div_one] at count
    have next : p % r.size + 1 = (p + 1) % r.size := by omega
    have push : Slots.pushFront r ((List.range' (p + 1) (last + 1 - (p + 1))).map f) x =
        .ok (x :: (List.range' (p + 1) (last + 1 - (p + 1))).map f) := by
      apply pushFront_slots
      rw [List.length_map, List.length_range']; omega
    have grown : x :: (List.range' (p + 1) (last + 1 - (p + 1))).map f =
        (List.range' p (last + 1 - p)).map (overwrite f p x) := by
      rw [overwrite_cons]
      congr 2; omega
    rw [filled_zero, editBelow_leaf, Edit.applyToLeaf]
    simp only [bind, Except.bind, ensure, next, or_true, if_true, push, grown]
    rfl
  | succ height ih =>
    have digits := (fits.part (Nat.le_refl p) (Nat.le_add_right p 1) ordered).digit_le
    have count := fits.digit_add_count_le
    have high := Nat.div_le_div_right (c := r.span (height + 1)) ordered
    have wide := Nat.div_le_div_right (c := r.span (height + 1)) fits.ordered
    have slot := Radix.slot_eq_iff.mp (rfl : p / r.span (height + 1) = _)
    have lower := Nat.lt_trans Radix.level_lt_succ word
    -- Behind the node with the new index all nodes stay parts of the longer window.
    have kept {i : Nat} (behind : p / r.span (height + 1) < (p + 1) / r.span (height + 1) + i)
        (used : (p + 1) / r.span (height + 1) + i ≤ last / r.span (height + 1)) :
        (row r f height (p + 1) last)[i]? = some (part r (overwrite f p x) height p last
          ((p + 1) / r.span (height + 1) + i)) := by
      rw [getElem?_row (by omega), part_left behind (Nat.le_refl _),
        part_overwrite_other (Nat.ne_of_lt behind)]
    rcases r.slot_succ (height + 1) p with same | ⟨next, aligned⟩
    · have upper := Radix.slot_eq_iff.mp same
      have inner := Radix.Fits.child fits.ordered (Nat.le_refl _) wide
      rw [Nat.max_eq_left slot.1] at inner
      have below := ih (by omega) inner lower
      have opens : (Edit.pushFront x).openNode r ((p + 1) / r.span (height + 1) % r.size)
          (row r f height (p + 1) last) (p / r.span (height + 1) % r.size)
          (r.level (height + 1)) =
          .ok ⟨p / r.span (height + 1) % r.size, row r f height (p + 1) last, 0⟩ := by
        rw [same, openNode_pushFront (Nat.le_refl _) (by rw [length_row]; omega), Nat.sub_self]
      have found : (row r f height (p + 1) last)[0]? = some (filled r f height (p + 1)
          (min last (p / r.span (height + 1) * r.span (height + 1) + (r.span (height + 1) - 1)))) := by
        rw [getElem?_row (by omega), ← same]
        exact congrArg some part_first
      refine editBelow_eq_filled word opens (by rw [length_row, same]) (Nat.add_zero _) found
        (below.trans ?_) fun i other used => ?_
      · rw [part_first]
      · rw [length_row] at used
        rw [kept (by omega) (by omega), same]
    · have opens : (Edit.pushFront x).openNode r ((p + 1) / r.span (height + 1) % r.size)
          (row r f height (p + 1) last) (p / r.span (height + 1) % r.size)
          (r.level (height + 1)) =
          .ok ⟨p / r.span (height + 1) % r.size,
            empty (r.level height) :: row r f height (p + 1) last, 0⟩ :=
        openNode_pushFront_new (by omega) (by rw [length_row]; omega) (by rw [length_row]; omega)
      have below := editBelow_pushFront_empty (x := x) (p := p) lower
      refine editBelow_eq_filled word opens ?_ (Nat.add_zero _) rfl (below.trans ?_)
        fun i other used => ?_
      · rw [List.length_cons, length_row]; omega
      · have positive := r.span_pos (height + 1)
        have stop : p / r.span (height + 1) * r.span (height + 1) + (r.span (height + 1) - 1) = p := by
          rw [next, Nat.succ_mul] at aligned; omega
        rw [part_first, stop, Nat.min_eq_right (by omega), filled_overwrite_self]
      · obtain ⟨i, rfl⟩ := Nat.exists_eq_succ_of_ne_zero other
        rw [List.length_cons, length_row] at used
        rw [List.getElem?_cons_succ, kept (by omega) (by omega), next]
        congr 2; omega

end DigitTrie.Node
