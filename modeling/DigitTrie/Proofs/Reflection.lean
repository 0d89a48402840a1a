import DigitTrie.Reflect
import DigitTrie.Proofs.Canonical

/-! The front is the back, reflected. The reflected tree of a window is the tree of the reflected window, so
reflecting an accepted trie gives an accepted trie with the elements in the opposite order; and since a window
has one tree only, what is done at the front of a trie is what is done at the back of its reflection. -/
namespace DigitTrie

variable {r : Radix} {α : Type} {f g : Nat → α} {x : α} {t u : Trie r α}
  {height offset length first last top p k : Nat}

/-! Counted from the other end, digits are counted from the other end. -/

namespace Radix

theorem slot_reflect (whole : top + 1 = k * r.span height) (inside : p ≤ top) :
    (top - p) / r.span height + p / r.span height + 1 = k := by
  have positive := r.span_pos height
  have slot := slot_eq_iff.mp (rfl : p / r.span height = _)
  have below : p / r.span height < k := by
    rw [Nat.div_lt_iff_lt_mul positive]; omega
  obtain ⟨behind, rfl⟩ := Nat.exists_eq_add_of_lt below
  rw [Nat.succ_mul, Nat.add_mul] at whole
  have here : (top - p) / r.span height = behind := by
    rw [slot_eq_iff]; omega
  omega

theorem digit_reflect (whole : top + 1 = k * r.span (height + 1)) (inside : p ≤ top) :
    (top - p) / r.span height % r.size + p / r.span height % r.size + 1 = r.size := by
  have nodes := slot_reflect whole inside
  rw [span_succ, Nat.mul_comm (r.span height), ← Nat.mul_assoc] at whole
  have slots := slot_reflect whole inside
  rw [span_succ, ← Nat.div_div_eq_div_mul, ← Nat.div_div_eq_div_mul] at nodes
  have left := Nat.div_add_mod' ((top - p) / r.span height) r.size
  have right := Nat.div_add_mod' (p / r.span height) r.size
  rw [← nodes, Nat.add_mul, Nat.add_mul, Nat.one_mul] at slots
  omega

end Radix

namespace Node

theorem reflectForest_row (whole : top + 1 = k * r.span (height + 1))
    (nodes : ∀ first last, r.Fits height first last → last ≤ top →
      (filled r f height first last).reflect r =
        filled r (fun p => f (top - p)) height (top - last) (top - first))
    (ordered : first ≤ last) (inside : last ≤ top) :
    reflectForest r (row r f height first last) =
      row r (fun p => f (top - p)) height (top - last) (top - first) := by
  have low := Radix.slot_reflect whole inside
  have high := Radix.slot_reflect whole (Nat.le_trans ordered inside)
  have monotone := Nat.div_le_div_right (c := r.span (height + 1)) ordered
  rw [reflectForest_eq_map]
  refine eq_row ?_ fun i used => ?_
  · simp only [List.length_reverse, List.length_map, length_row]
    omega
  · rw [List.getElem?_reverse (by simp only [List.length_map, length_row]; omega), List.getElem?_map,
      List.length_map, length_row, getElem?_row (by omega), Option.map_some]
    generalize here : first / r.span (height + 1) +
      (last / r.span (height + 1) + 1 - first / r.span (height + 1) - 1 - i) = c
    generalize there : (top - last) / r.span (height + 1) + i = d
    -- The slots `c` and `d` are as far from the two ends of the node, and so are the parts below them.
    have slots : k = c + d + 1 := by omega
    rw [slots, Nat.add_mul, Nat.add_mul, Nat.one_mul] at whole
    have room := r.span_pos (height + 1)
    have start : top - min last (c * r.span (height + 1) + (r.span (height + 1) - 1)) =
        max (top - last) (d * r.span (height + 1)) := by omega
    have stop : top - max first (c * r.span (height + 1)) =
        min (top - first) (d * r.span (height + 1) + (r.span (height + 1) - 1)) := by omega
    rw [part, nodes _ _ (Radix.Fits.child ordered (by omega) (by omega)) (by omega), start, stop, part]

/-- The reflected tree of a window is the tree of the window counted from `top` downwards, if that is the
last index below some node. -/
theorem reflect_filled (whole : top + 1 = k * r.span (height + 1)) (fits : r.Fits height first last)
    (inside : last ≤ top) :
    (filled r f height first last).reflect r =
      filled r (fun p => f (top - p)) height (top - last) (top - first) := by
  have ordered := fits.ordered
  have digit := Radix.digit_reflect whole inside
  have digits := fits.digit_le
  induction height generalizing first last k with
  | zero =>
    simp only [Radix.span_zero, Nat.div_one] at digit digits
    have start : r.size - first % r.size - (last + 1 - first) = (top - last) % r.size := by omega
    have count : top - first + 1 - (top - last) = last + 1 - first := by omega
    rw [filled_zero, filled_zero, reflect, List.length_map, List.length_range', start, count]
    refine congrArg _ (List.ext_getElem (by simp) fun i used _ => ?_)
    simp only [List.length_reverse, List.length_map, List.length_range'] at used
    simp only [List.getElem_reverse, List.getElem_map, List.getElem_range', List.length_map,
      List.length_range', Nat.one_mul]
    congr 1
    omega
  | succ height ih =>
    have monotone := Nat.div_le_div_right (c := r.span (height + 1)) ordered
    have below : top + 1 = k * r.size * r.span (height + 1) := by
      rw [whole, r.span_succ (height + 1), Nat.mul_comm (r.span _), Nat.mul_assoc]
    have start : r.size - first / r.span (height + 1) % r.size -
        (last / r.span (height + 1) + 1 - first / r.span (height + 1)) =
        (top - last) / r.span (height + 1) % r.size := by omega
    have children := reflectForest_row (f := f) below
      (fun first last fits inside => ih below fits inside fits.ordered
        (Radix.digit_reflect below inside) fits.digit_le) ordered inside
    rw [filled_succ, filled_succ, reflect, length_row, start, children]

end Node

namespace Trie

theorem toList_reflect (t : Trie r α) : t.reflect.toList = t.toList.reverse := by
  obtain ⟨root, offset, length, level⟩ := t
  cases root with
  | none => rfl
  | some root => exact Node.toList_reflect r root

theorem reflect_filled (admits : r.Admits height offset length) :
    (filled f height offset length : Trie r α).reflect =
      filled (fun p => f (r.span (height + 1) - 1 - p)) height (r.span (height + 1) - offset - length)
        length := by
  have positive := admits.positive
  have inside := admits.inside
  have whole : r.span (height + 1) - 1 + 1 = 1 * r.span (height + 1) := by omega
  have tree := Node.reflect_filled (f := f) whole admits.fits (by omega)
  have start : r.span (height + 1) - 1 - (offset + length - 1) = r.span (height + 1) - offset - length := by
    omega
  have stop : r.span (height + 1) - 1 - offset = r.span (height + 1) - offset - length + length - 1 := by
    omega
  have room : r.size <<< r.level height = r.span (height + 1) := by
    rw [Nat.shiftLeft_eq, Radix.size_mul_two_pow_level]
  rw [start, stop] at tree
  simp only [reflect, filled, tree, room]

theorem admits_reflect (admits : r.Admits height offset length) :
    r.Admits height (r.span (height + 1) - offset - length) length := by
  have inside := admits.inside
  exact ⟨admits.positive, by omega, admits.word⟩

theorem Accepted.reflect (accepted : t.Accepted) : t.reflect.Accepted := by
  rcases accepted.cases with rfl | ⟨f, height, offset, length, admits, rfl⟩
  · exact empty_accepted
  · rw [reflect_filled admits]
    exact filled_accepted (admits_reflect admits)

/-- The room before the window becomes the room after it. -/
theorem window_reflect (accepted : t.Accepted) (used : 0 < t.length) :
    t.reflect.window = ⟨t.level, r.size * 2 ^ t.level - t.offset - t.length, t.length⟩ := by
  rcases accepted.cases with rfl | ⟨f, height, offset, length, admits, rfl⟩
  · exact absurd used (Nat.lt_irrefl 0)
  · simp [reflect_filled admits, window, Radix.size_mul_two_pow_level]

theorem Accepted.eq_reflect (t_accepted : t.Accepted) (u_accepted : u.Accepted) (used : 0 < t.length)
    (level : u.level = t.level) (start : u.offset = r.size * 2 ^ t.level - t.offset - t.length)
    (elements : u.toList = t.toList.reverse) : u = t.reflect := by
  obtain ⟨same, offset, -⟩ := Window.mk.inj (window_reflect t_accepted used)
  exact u_accepted.ext t_accepted.reflect (level.trans same.symm) (start.trans offset.symm)
    (elements.trans (toList_reflect t).symm)

theorem reflect_reflect (accepted : t.Accepted) (used : 0 < t.length) : t.reflect.reflect = t := by
  obtain ⟨level, offset, length⟩ := Window.mk.inj (window_reflect accepted used)
  have inside := accepted.inside
  refine (accepted.reflect.eq_reflect accepted (length ▸ used) level.symm ?_ ?_).symm
  · rw [level, offset, length]
    omega
  · rw [toList_reflect, List.reverse_reverse]

/-- The window that a level added in front leaves, counted from the other end. -/
theorem grown_window_reflect (inside : length ≤ r.size * 2 ^ t.level) :
    r.size * 2 ^ t.level - length = r.size * 2 ^ (t.level + r.bits) -
      ((r.size - 1) * 2 ^ (t.level + r.bits) - 1) - (length + 1) := by
  rw [Radix.two_pow_add_bits]
  generalize r.size * 2 ^ t.level = room at inside ⊢
  obtain ⟨slots, size⟩ := Nat.exists_eq_add_of_le' r.two_le_size
  rw [size, Nat.add_sub_assoc (by decide) slots, Nat.add_mul, Nat.add_mul]
  omega

/-- A push to the front is a push to the back of the reflection. -/
theorem reflect_pushFront (accepted : t.Accepted) (used : 0 < t.length)
    (room : 0 < t.offset ∨ t.level + 2 * r.bits ≤ 63) (x : α) :
    ∃ u growth, t.pushFront x = .ok (u, growth) ∧ u.Accepted ∧ u.toList = x :: t.toList ∧
      t.reflect.pushBack x = .ok (u.reflect, growth) := by
  obtain ⟨level, offset, length⟩ := Window.mk.inj (window_reflect accepted used)
  have inside := accepted.inside
  rcases Nat.eq_zero_or_pos t.offset with first | before
  · have word : t.level + 2 * r.bits ≤ 63 := room.resolve_left (Nat.not_lt.mpr (Nat.le_zero.mpr first))
    have full : t.reflect.offset + t.reflect.length = r.size * 2 ^ t.reflect.level := by
      rw [level, offset, length]
      omega
    obtain ⟨u, front, u_accepted, u_elements, u_window⟩ := pushFront_grows accepted used first word x
    obtain ⟨v, back, v_accepted, v_elements, v_window⟩ :=
      pushBack_grows accepted.reflect full (level ▸ word) x
    obtain ⟨u_level, u_offset, u_length⟩ := Window.mk.inj u_window
    obtain ⟨v_level, v_offset, -⟩ := Window.mk.inj v_window
    have mirrored : v = u.reflect := by
      refine u_accepted.eq_reflect v_accepted (by omega) (by rw [v_level, level, u_level]) ?_ ?_
      · rw [v_offset, offset, u_level, u_offset, u_length, first, Nat.sub_zero]
        exact grown_window_reflect (by omega)
      · simp [v_elements, u_elements, toList_reflect]
    rw [mirrored, level, length] at back
    exact ⟨u, _, front, u_accepted, u_elements, back⟩
  · have free : t.reflect.offset + t.reflect.length < r.size * 2 ^ t.reflect.level := by
      rw [level, offset, length]
      omega
    obtain ⟨u, front, u_accepted, u_elements, u_window⟩ := pushFront_room accepted before x
    obtain ⟨v, back, v_accepted, v_elements, v_window⟩ := pushBack_room accepted.reflect free x
    obtain ⟨u_level, u_offset, u_length⟩ := Window.mk.inj u_window
    obtain ⟨v_level, v_offset, -⟩ := Window.mk.inj v_window
    have mirrored : v = u.reflect := by
      refine u_accepted.eq_reflect v_accepted (by omega) (by rw [v_level, level, u_level]) ?_ ?_
      · rw [v_offset, offset, u_level, u_offset, u_length]
        omega
      · simp [v_elements, u_elements, toList_reflect]
    exact ⟨u, none, front, u_accepted, u_elements, mirrored ▸ back⟩

/-- A cut at the front is a cut at the back of the reflection. -/
theorem reflect_drop (accepted : t.Accepted) (used : 0 < t.length) (n : Nat) :
    ∃ u, t.drop n = .ok u ∧ u.Accepted ∧ u.toList = t.toList.drop n ∧
      t.reflect.take (t.length - n) = .ok u.reflect := by
  obtain ⟨level, offset, length⟩ := Window.mk.inj (window_reflect accepted used)
  obtain ⟨u, dropped, u_accepted, same, all, front⟩ := drop_step accepted n
  obtain ⟨_, again, -, u_elements⟩ := drop_toList accepted n
  cases dropped.symm.trans again
  obtain ⟨v, taken, v_accepted, whole, nothing, back⟩ := take_step accepted.reflect (t.length - n)
  refine ⟨u, dropped, u_accepted, u_elements, ?_⟩
  rw [taken]
  rcases Nat.eq_zero_or_pos n with zero | positive
  · rw [same zero, whole (by omega)]
  by_cases short : n < t.length
  · obtain ⟨u_level, u_offset, u_length⟩ := Window.mk.inj (front positive short)
    obtain ⟨v_level, v_offset, v_length⟩ := Window.mk.inj (back (by omega) (by omega))
    obtain ⟨_, again, -, v_elements⟩ := take_toList accepted.reflect (t.length - n)
    cases taken.symm.trans again
    have elements : v.toList = u.toList.reverse := by
      rw [v_elements, u_elements, toList_reflect, List.reverse_drop, length_toList accepted]
    rw [u_accepted.eq_reflect v_accepted (by omega) (by rw [v_level, level, u_level]) (by
      rw [v_offset, offset, u_level, u_offset, u_length]; omega) elements]
  · rw [all (by omega), nothing (by omega)]
    rfl

/-- What is done at the front of a trie is done at the back of its reflection, tree for tree and report for
report: a reflection is accepted, it has the elements in the opposite order, reflecting it gives the trie
again, and a push or a cut at one end adds or removes what it says, and is the same push or cut at the other. -/
theorem reflection_exchanges_ends (accepted : t.Accepted) (used : 0 < t.length) :
    t.reflect.Accepted ∧ t.reflect.elements = .ok t.toList.reverse ∧ t.reflect.reflect = t ∧
    t.reflect.window = ⟨t.level, r.size * 2 ^ t.level - t.offset - t.length, t.length⟩ ∧
    (∀ x, 0 < t.offset ∨ t.level + 2 * r.bits ≤ 63 →
      ∃ u growth, t.pushFront x = .ok (u, growth) ∧ u.Accepted ∧ u.toList = x :: t.toList ∧
        t.reflect.pushBack x = .ok (u.reflect, growth)) ∧
    (∀ n, ∃ u, t.drop n = .ok u ∧ u.Accepted ∧ u.toList = t.toList.drop n ∧
      t.reflect.take (t.length - n) = .ok u.reflect) := by
  refine ⟨accepted.reflect, ?_, reflect_reflect accepted used, window_reflect accepted used,
    fun x room => reflect_pushFront accepted used room x, reflect_drop accepted used⟩
  rw [elements_toList accepted.reflect, toList_reflect]

/-- A trie that is full at the front: the push adds a level on both sides of the glass. -/
theorem reflection_exchanges_ends_full :
    (filled id 1 0 3 : Trie Radix.binary Nat).Accepted ∧
      (filled id 1 0 3 : Trie Radix.binary Nat).reflect.reflect = filled id 1 0 3 ∧
      ∃ (u : Trie Radix.binary Nat) (growth : Option Growth),
        (filled id 1 0 3).pushFront 7 = .ok (u, growth) ∧
        (filled id 1 0 3).reflect.pushBack 7 = .ok (u.reflect, growth) := by
  have accepted : (filled id 1 0 3 : Trie Radix.binary Nat).Accepted :=
    filled_accepted ⟨by decide, by decide, by decide⟩
  obtain ⟨-, -, twice, -, push, -⟩ := reflection_exchanges_ends accepted (by decide)
  obtain ⟨u, growth, front, -, -, back⟩ := push 7 (.inr (by decide))
  exact ⟨accepted, twice, u, growth, front, back⟩

end Trie

end DigitTrie
