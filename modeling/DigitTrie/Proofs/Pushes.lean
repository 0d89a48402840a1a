import DigitTrie.Proofs.StepLaw

/-! What a push does, in full. Whether there is room or a level has to be added: the report, the window and
the elements after the push follow from those before it, so a later proof cites a push and does not carry it
out. -/
namespace DigitTrie.Trie

variable {r : Radix} {α : Type} {f : Nat → α} {x : α} {t : Trie r α} {height offset length : Nat}

@[simp] theorem toList_empty : (empty : Trie r α).toList = [] := rfl

@[simp] theorem toList_unit : (unit x : Trie r α).toList = [x] := by
  simp [toList, unit, Node.unit, Node.toList]

theorem Accepted.inside (accepted : t.Accepted) : t.offset + t.length ≤ r.size * 2 ^ t.level := by
  rcases accepted.cases with rfl | ⟨f, height, offset, length, admits, rfl⟩
  · exact Nat.zero_le _
  · simpa [Radix.size_mul_two_pow_level] using admits.inside

theorem pushBack_room (accepted : t.Accepted) (room : t.offset + t.length < r.size * 2 ^ t.level) (x : α) :
    ∃ u, t.pushBack x = .ok (u, none) ∧ u.Accepted ∧ u.toList = t.toList ++ [x] ∧
      u.window = ⟨t.level, t.offset, t.length + 1⟩ := by
  rcases accepted.cases with rfl | ⟨f, height, offset, length, admits, rfl⟩
  · exact ⟨unit x, rfl, unit_accepted, toList_unit, rfl⟩
  · simp only [offset_filled, length_filled, level_filled, Radix.size_mul_two_pow_level] at room
    have longer : r.Admits height offset (length + 1) := ⟨Nat.succ_pos _, room, admits.word⟩
    refine ⟨_, pushBack_filled admits room, filled_accepted longer, ?_, rfl⟩
    rw [toList_filled longer, toList_filled admits, Node.overwrite_append]

theorem pushBack_grows (accepted : t.Accepted) (full : t.offset + t.length = r.size * 2 ^ t.level)
    (word : t.level + 2 * r.bits ≤ 63) (x : α) :
    ∃ u, t.pushBack x = .ok (u, some ⟨t.length, t.level + r.bits⟩) ∧ u.Accepted ∧
      u.toList = t.toList ++ [x] ∧ u.window = ⟨t.level + r.bits, t.offset, t.length + 1⟩ := by
  rcases accepted.cases with rfl | ⟨f, height, offset, length, admits, rfl⟩
  · exact absurd full (Nat.ne_of_lt (Nat.mul_pos r.size_pos (Nat.two_pow_pos _)))
  · simp only [offset_filled, length_filled, level_filled, Radix.size_mul_two_pow_level] at full word ⊢
    have next : r.level (height + 1) + r.bits ≤ 63 := by rw [Radix.level_succ]; omega
    have grown := admits_grown admits next
    rw [← Radix.level_succ]
    refine ⟨_, pushBack_full admits full next, filled_accepted grown, ?_, rfl⟩
    rw [toList_filled grown, toList_filled admits, Node.overwrite_append]

theorem pushFront_room (accepted : t.Accepted) (room : 0 < t.offset) (x : α) :
    ∃ u, t.pushFront x = .ok (u, none) ∧ u.Accepted ∧ u.toList = x :: t.toList ∧
      u.window = ⟨t.level, t.offset - 1, t.length + 1⟩ := by
  rcases accepted.cases with rfl | ⟨f, height, offset, length, admits, rfl⟩
  · exact absurd room (Nat.lt_irrefl 0)
  · have inside := admits.inside
    obtain ⟨p, rfl⟩ := Nat.exists_eq_add_one_of_ne_zero (Nat.ne_of_gt room)
    have longer : r.Admits height p (length + 1) := ⟨Nat.succ_pos _, by omega, admits.word⟩
    refine ⟨_, pushFront_filled admits, filled_accepted longer, ?_, rfl⟩
    rw [toList_filled longer, toList_filled admits, Node.overwrite_cons]

/-- A level that is added in front moves the elements into the last slot of the new root. -/
theorem map_lastSlot (f : Nat → α) (height length : Nat) :
    (List.range' (r.lastSlot height) length).map (fun p => f (p - r.lastSlot height)) =
      (List.range' 0 length).map f := by
  have moved : List.range' (r.lastSlot height) length =
      (List.range' 0 length).map (r.lastSlot height + ·) := by
    rw [List.map_add_range', Nat.add_zero (r.lastSlot _)]
  rw [moved, List.map_map]
  simp [Function.comp_def]

theorem pushFront_grows (accepted : t.Accepted) (used : 0 < t.length) (full : t.offset = 0)
    (word : t.level + 2 * r.bits ≤ 63) (x : α) :
    ∃ u, t.pushFront x = .ok (u, some ⟨t.length, t.level + r.bits⟩) ∧ u.Accepted ∧
      u.toList = x :: t.toList ∧
      u.window = ⟨t.level + r.bits, (r.size - 1) * 2 ^ (t.level + r.bits) - 1, t.length + 1⟩ := by
  rcases accepted.cases with rfl | ⟨f, height, offset, length, admits, rfl⟩
  · exact absurd used (Nat.lt_irrefl 0)
  · cases full
    have inside := admits.inside
    rw [level_filled, ← Radix.level_succ]
    have next : r.level (height + 1) + r.bits ≤ 63 := by
      rw [level_filled] at word
      rw [Radix.level_succ]
      omega
    have slots := r.lastSlot_add_span (height + 1)
    have positive := r.lastSlot_pos (height + 1)
    have grown : r.Admits (height + 1) (r.lastSlot (height + 1) - 1) (length + 1) :=
      ⟨Nat.succ_pos _, by omega, next⟩
    refine ⟨_, pushFront_full admits next, filled_accepted grown, ?_, rfl⟩
    rw [toList_filled grown, toList_filled admits, ← Node.overwrite_cons, Nat.sub_add_cancel positive,
      map_lastSlot]

end DigitTrie.Trie
