import DigitTrie.Proofs.Steps

/-! The law of a single step. Whatever a trie looks like, as long as it is accepted, the window after an
operation follows from the window before it; and a push is refused exactly if the tree would have to grow
to a level whose capacity is no word. -/
namespace DigitTrie.Trie

variable {r : Radix} {α : Type} {f : Nat → α} {x : α} {t u : Trie r α} {growth : Option Growth}
  {height offset length i n p start stop : Nat}

structure Window where
  level : Nat
  offset : Nat
  length : Nat
deriving DecidableEq, Repr

def window (t : Trie r α) : Window := ⟨t.level, t.offset, t.length⟩

/-- An accepted trie that stores anything has a level that leaves its capacity a word. -/
theorem Accepted.level_le (accepted : t.Accepted) : t.level + r.bits ≤ 63 ∨ t = empty := by
  rcases accepted.cases with rfl | ⟨f, height, offset, length, admits, rfl⟩
  · exact .inr rfl
  · exact .inl admits.word

theorem edit_level {change : Edit α} (edited : t.edit p change = .ok u) : u.level = t.level := by
  obtain ⟨root, offset, length, level⟩ := t
  cases root with
  | none =>
    cases edited
    rfl
  | some root =>
    obtain ⟨_, _, same⟩ := bind_eq_ok_iff.mp edited
    cases same
    rfl

/-- After a push the trie is not empty, and it stands as high as when room had been made. -/
theorem pushBack_roomy (used : t.isEmpty = false) (pushed : t.pushBack x = .ok (u, growth)) :
    ∃ roomy, t.roomBack = .ok (roomy, growth) ∧ u.level = roomy.level ∧ u.isEmpty = false := by
  rw [pushBack, used] at pushed
  obtain ⟨⟨roomy, _⟩, room, indexed⟩ := bind_eq_ok_iff.mp pushed
  obtain ⟨_, -, edits⟩ := bind_eq_ok_iff.mp indexed
  obtain ⟨edited, edit, counts⟩ := bind_eq_ok_iff.mp edits
  obtain ⟨count, added, same⟩ := bind_eq_ok_iff.mp counts
  have level := edit_level edit
  have longer := (Word.add_eq_ok_iff.mp added).2
  cases same
  exact ⟨roomy, room, level, beq_false_of_ne (by dsimp only; omega)⟩

theorem pushFront_roomy (used : t.isEmpty = false) (pushed : t.pushFront x = .ok (u, growth)) :
    ∃ roomy, t.roomFront = .ok (roomy, growth) ∧ u.level = roomy.level := by
  rw [pushFront, used] at pushed
  obtain ⟨⟨roomy, _⟩, room, indexed⟩ := bind_eq_ok_iff.mp pushed
  obtain ⟨_, -, edits⟩ := bind_eq_ok_iff.mp indexed
  obtain ⟨edited, edit, counts⟩ := bind_eq_ok_iff.mp edits
  obtain ⟨_, -, same⟩ := bind_eq_ok_iff.mp counts
  have level := edit_level edit
  cases same
  exact ⟨roomy, room, level⟩

/-- Growing to the back adds a level, whether or not there are words for it. -/
theorem pushBack_level (admits : r.Admits height offset length)
    (full : offset + length = r.span (height + 1))
    (pushed : (filled f height offset length : Trie r α).pushBack x = .ok (u, growth)) :
    u.level = r.level (height + 1) := by
  obtain ⟨roomy, room, level, -⟩ := pushBack_roomy (isEmpty_filled admits) pushed
  rw [roomBack_full admits full] at room
  cases room
  exact level

theorem pushFront_level (admits : r.Admits height 0 length)
    (pushed : (filled f height 0 length : Trie r α).pushFront x = .ok (u, growth)) :
    u.level = r.level (height + 1) := by
  obtain ⟨roomy, room, level⟩ := pushFront_roomy (isEmpty_filled admits) pushed
  obtain ⟨_, -, grown⟩ := bind_eq_ok_iff.mp room
  cases grown
  exact level.trans Radix.level_succ.symm

theorem pushBack_exists_iff (admits : r.Admits height offset length) :
    (∃ u growth, (filled f height offset length : Trie r α).pushBack x = .ok (u, growth) ∧ u.Accepted) ↔
      offset + length < r.span (height + 1) ∨ r.level height + 2 * r.bits ≤ 63 := by
  have inside := admits.inside
  constructor
  · rintro ⟨u, growth, pushed, accepted⟩
    by_cases room : offset + length < r.span (height + 1)
    · exact .inl room
    · have level := pushBack_level admits (by omega) pushed
      have above : r.level (height + 1) ≠ 0 := Radix.level_succ_ne_zero
      rw [Radix.level_succ] at level above
      rcases accepted.level_le with low | rfl
      · omega
      · exact absurd level.symm above
  · intro grows
    by_cases room : offset + length < r.span (height + 1)
    · exact ⟨_, _, pushBack_filled admits room, filled_accepted ⟨Nat.succ_pos _, room, admits.word⟩⟩
    · have word : r.level (height + 1) + r.bits ≤ 63 := by rw [Radix.level_succ]; omega
      exact ⟨_, _, pushBack_full admits (by omega) word, filled_accepted (admits_grown admits word)⟩

theorem pushFront_exists_iff (admits : r.Admits height offset length) :
    (∃ u growth, (filled f height offset length : Trie r α).pushFront x = .ok (u, growth) ∧ u.Accepted) ↔
      0 < offset ∨ r.level height + 2 * r.bits ≤ 63 := by
  have inside := admits.inside
  cases offset with
  | zero =>
    constructor
    · rintro ⟨u, growth, pushed, accepted⟩
      have level := pushFront_level admits pushed
      have above : r.level (height + 1) ≠ 0 := Radix.level_succ_ne_zero
      rw [Radix.level_succ] at level above
      rcases accepted.level_le with low | rfl
      · omega
      · exact absurd level.symm above
    · intro grows
      have word : r.level (height + 1) + r.bits ≤ 63 := by rw [Radix.level_succ]; omega
      have room := r.lastSlot_pos (height + 1)
      have slots := r.lastSlot_add_span (height + 1)
      exact ⟨_, _, pushFront_full admits word, filled_accepted ⟨Nat.succ_pos _, by omega, word⟩⟩
  | succ p =>
    have roomier : r.Admits height p (length + 1) := ⟨Nat.succ_pos _, by omega, admits.word⟩
    exact iff_of_true ⟨_, _, pushFront_filled admits, filled_accepted roomier⟩ (.inl (Nat.succ_pos p))

theorem pushBack_window (admits : r.Admits height offset length)
    (pushed : (filled f height offset length : Trie r α).pushBack x = .ok (u, growth))
    (accepted : u.Accepted) :
    (offset + length < r.span (height + 1) → u.window = ⟨r.level height, offset, length + 1⟩) ∧
      (offset + length = r.span (height + 1) → u.window = ⟨r.level (height + 1), offset, length + 1⟩) := by
  constructor
  · intro room
    rw [pushBack_filled admits room] at pushed
    cases pushed
    rfl
  · intro full
    have grows := (pushBack_exists_iff admits).mp ⟨u, growth, pushed, accepted⟩
    have word : r.level (height + 1) + r.bits ≤ 63 := by rw [Radix.level_succ]; omega
    rw [pushBack_full admits full word] at pushed
    cases pushed
    rfl

theorem pushFront_window (admits : r.Admits height offset length)
    (pushed : (filled f height offset length : Trie r α).pushFront x = .ok (u, growth))
    (accepted : u.Accepted) :
    (0 < offset → u.window = ⟨r.level height, offset - 1, length + 1⟩) ∧
      (offset = 0 → u.window = ⟨r.level (height + 1), r.lastSlot (height + 1) - 1, length + 1⟩) := by
  constructor
  · intro room
    obtain ⟨p, rfl⟩ := Nat.exists_eq_add_one_of_ne_zero (Nat.ne_of_gt room)
    rw [pushFront_filled admits] at pushed
    cases pushed
    rfl
  · rintro rfl
    have grows := (pushFront_exists_iff admits).mp ⟨u, growth, pushed, accepted⟩
    have word : r.level (height + 1) + r.bits ≤ 63 := by rw [Radix.level_succ]; omega
    rw [pushFront_full admits word] at pushed
    cases pushed
    rfl

/-! The same for any accepted trie, in the numbers that it holds. -/

theorem set_step (accepted : t.Accepted) (inside : i < t.length) :
    ∃ u, t.set i x = .ok (.done, u) ∧ u.Accepted ∧ u.window = t.window := by
  rcases accepted.cases with rfl | ⟨f, height, offset, length, admits, rfl⟩
  · exact absurd inside (Nat.not_lt_zero i)
  · exact ⟨_, set_filled admits inside, filled_accepted admits, rfl⟩

theorem drop_step (accepted : t.Accepted) (n : Nat) :
    ∃ u, t.drop n = .ok u ∧ u.Accepted ∧ (n = 0 → u = t) ∧ (t.length ≤ n → u = empty) ∧
      (0 < n → n < t.length → u.window = ⟨t.level, t.offset + n, t.length - n⟩) := by
  rcases drop_cases accepted n with ⟨rfl, done⟩ | ⟨all, done⟩ |
    ⟨f, height, offset, length, -, cut, positive, short, rfl, done⟩
  · exact ⟨t, done, accepted, fun _ => rfl, fun all => accepted.eq_empty (Nat.le_zero.mp all),
      fun positive => absurd positive (Nat.lt_irrefl 0)⟩
  · exact ⟨empty, done, empty_accepted, fun zero => (accepted.eq_empty (by omega)).symm, fun _ => rfl,
      fun _ short => absurd all (Nat.not_le.mpr short)⟩
  · exact ⟨_, done, filled_accepted cut, fun zero => absurd zero (Nat.ne_of_gt positive),
      fun all => absurd all (Nat.not_le.mpr short), fun _ _ => rfl⟩

theorem take_step (accepted : t.Accepted) (n : Nat) :
    ∃ u, t.take n = .ok u ∧ u.Accepted ∧ (t.length ≤ n → u = t) ∧ (n = 0 → u = empty) ∧
      (0 < n → n < t.length → u.window = ⟨t.level, t.offset, n⟩) := by
  rcases take_cases accepted n with ⟨all, done⟩ | ⟨rfl, done⟩ |
    ⟨f, height, offset, length, -, cut, positive, short, rfl, done⟩
  · exact ⟨t, done, accepted, fun _ => rfl, fun zero => accepted.eq_empty (by omega),
      fun _ short => absurd all (Nat.not_le.mpr short)⟩
  · exact ⟨empty, done, empty_accepted, fun all => (accepted.eq_empty (Nat.le_zero.mp all)).symm,
      fun _ => rfl, fun positive => absurd positive (Nat.lt_irrefl 0)⟩
  · exact ⟨_, done, filled_accepted cut, fun all => absurd all (Nat.not_le.mpr short),
      fun zero => absurd zero (Nat.ne_of_gt positive), fun _ _ => rfl⟩

/-- What a cut at the back leaves, said for all bounds at once. -/
theorem take_window (accepted : t.Accepted) (taken : t.take n = .ok u) :
    u.length = min n t.length ∧ (0 < min n t.length → u.window = ⟨t.level, t.offset, min n t.length⟩) := by
  obtain ⟨_, again, -, keeps, removes, cut⟩ := take_step accepted n
  rw [taken] at again
  cases again
  by_cases whole : t.length ≤ n
  · rw [keeps whole, Nat.min_eq_right whole]
    exact ⟨rfl, fun _ => rfl⟩
  · by_cases zero : n = 0
    · rw [removes zero, zero, Nat.zero_min]
      exact ⟨rfl, fun positive => absurd positive (Nat.lt_irrefl 0)⟩
    · have window := cut (by omega) (by omega)
      rw [Nat.min_eq_left (by omega)]
      exact ⟨congrArg Window.length window, fun _ => window⟩

theorem slice_step (accepted : t.Accepted) (start stop : Nat) :
    ∃ u, t.slice start stop = .ok u ∧ u.Accepted ∧ (start = 0 → t.length ≤ stop → u = t) ∧
      (min stop t.length ≤ start → u = empty) ∧
      (start < min stop t.length →
        u.window = ⟨t.level, t.offset + start, min stop t.length - start⟩) := by
  obtain ⟨front, taken, front_accepted, all, -⟩ := take_step accepted stop
  obtain ⟨u, dropped, u_accepted, keeps, removes, cuts⟩ := drop_step front_accepted start
  obtain ⟨length, window⟩ := take_window accepted taken
  refine ⟨u, bind_eq_ok_iff.mpr ⟨front, taken, dropped⟩, u_accepted,
    fun zero whole => (keeps zero).trans (all whole), fun covers => removes (by omega), fun short => ?_⟩
  have window := window (by omega)
  by_cases zero : start = 0
  · rw [keeps zero, window, zero]
    rfl
  · have level : front.level = t.level := congrArg Window.level window
    have offset : front.offset = t.offset := congrArg Window.offset window
    rw [cuts (by omega) (by omega), length, level, offset]

/-- Every operation on every accepted trie: those that add nothing return an accepted trie, and a push
does exactly if its side has room or one more level leaves the capacity a word. -/
theorem step_law (accepted : t.Accepted) :
    (∀ i x, i < t.length → ∃ u, t.set i x = .ok (.done, u) ∧ t.update i x = .ok u ∧ u.Accepted ∧
      u.window = t.window) ∧
    (∀ n, ∃ u, t.drop n = .ok u ∧ u.Accepted ∧ (n = 0 → u = t) ∧ (t.length ≤ n → u = empty) ∧
      (0 < n → n < t.length → u.window = ⟨t.level, t.offset + n, t.length - n⟩)) ∧
    (∀ n, ∃ u, t.take n = .ok u ∧ u.Accepted ∧ (t.length ≤ n → u = t) ∧ (n = 0 → u = empty) ∧
      (0 < n → n < t.length → u.window = ⟨t.level, t.offset, n⟩)) ∧
    (∀ start stop, ∃ u, t.slice start stop = .ok u ∧ u.Accepted ∧
      (start = 0 → t.length ≤ stop → u = t) ∧ (min stop t.length ≤ start → u = empty) ∧
      (start < min stop t.length →
        u.window = ⟨t.level, t.offset + start, min stop t.length - start⟩)) ∧
    (t.length = 0 → ∀ x, t.pushBack x = .ok (unit x, none) ∧ t.pushFront x = .ok (unit x, none) ∧
      (unit x : Trie r α).Accepted) ∧
    (0 < t.length → ∀ x,
      ((∃ u growth, t.pushBack x = .ok (u, growth) ∧ u.Accepted) ↔
        t.offset + t.length < r.size * 2 ^ t.level ∨ t.level + 2 * r.bits ≤ 63) ∧
      ((∃ u growth, t.pushFront x = .ok (u, growth) ∧ u.Accepted) ↔
        0 < t.offset ∨ t.level + 2 * r.bits ≤ 63) ∧
      (∀ u growth, t.pushBack x = .ok (u, growth) → u.Accepted →
        (t.offset + t.length < r.size * 2 ^ t.level → u.window = ⟨t.level, t.offset, t.length + 1⟩) ∧
        (t.offset + t.length = r.size * 2 ^ t.level →
          u.window = ⟨t.level + r.bits, t.offset, t.length + 1⟩)) ∧
      (∀ u growth, t.pushFront x = .ok (u, growth) → u.Accepted →
        (0 < t.offset → u.window = ⟨t.level, t.offset - 1, t.length + 1⟩) ∧
        (t.offset = 0 → u.window =
          ⟨t.level + r.bits, (r.size - 1) * 2 ^ (t.level + r.bits) - 1, t.length + 1⟩))) := by
  refine ⟨fun i x inside => ?_, drop_step accepted, take_step accepted, slice_step accepted,
    fun unused x => ?_, fun used x => ?_⟩
  · obtain ⟨u, done, means⟩ := set_step accepted inside (x := x)
    exact ⟨u, done, update_eq_ok_iff.mpr done, means⟩
  · have vacant : t.isEmpty = true := beq_iff_eq.mpr unused
    exact ⟨if_pos vacant, if_pos vacant, unit_accepted⟩
  · rcases accepted.cases with rfl | ⟨f, height, offset, length, admits, rfl⟩
    · exact absurd used (Nat.lt_irrefl 0)
    · simp only [offset_filled, length_filled, level_filled, Radix.size_mul_two_pow_level,
        ← Radix.level_succ]
      exact ⟨pushBack_exists_iff admits, pushFront_exists_iff admits,
        fun u growth pushed => pushBack_window admits pushed,
        fun u growth pushed => pushFront_window admits pushed⟩

/-- A leaf with both of its slots in use: a push to the front adds a level. -/
theorem step_law_full_leaf :
    (filled id 0 0 2 : Trie Radix.binary Nat).Accepted ∧
      ∃ (u : Trie Radix.binary Nat) (growth : Option Growth),
        (filled id 0 0 2).pushFront 7 = .ok (u, growth) ∧ u.Accepted ∧ u.window = ⟨1, 1, 3⟩ := by
  have accepted : (filled id 0 0 2 : Trie Radix.binary Nat).Accepted :=
    filled_accepted ⟨by decide, by decide, by decide⟩
  obtain ⟨-, -, -, -, -, pushes⟩ := step_law accepted
  obtain ⟨-, front, -, window⟩ := pushes (by decide) 7
  obtain ⟨u, growth, pushed, u_accepted⟩ := front.mpr (.inr (by decide))
  exact ⟨accepted, u, growth, pushed, u_accepted, (window u growth pushed u_accepted).2 rfl⟩

end DigitTrie.Trie
