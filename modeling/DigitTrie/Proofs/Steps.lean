import DigitTrie.Trie.Push
import DigitTrie.Trie.Window
import DigitTrie.Proofs.FilledEdits
import DigitTrie.Proofs.Acceptance

/-! Each operation on the trie of a window, computed. Every result is again the trie of a window, so all
that an operation does can be read off four numbers and a function. -/
namespace DigitTrie.Trie

variable {r : Radix} {α : Type} {f : Nat → α} {x : α} {t : Trie r α}
  {height offset length i n p start stop : Nat}

theorem edit_root {change : Edit α} {root edited : Node α} (word : r.level height < 64)
    (inside : p < r.span (height + 1))
    (below : root.editBelow r change (r.level height) p = .ok edited) :
    (⟨some root, offset, length, r.level height⟩ : Trie r α).edit p change =
      .ok ⟨some edited, offset, length, r.level height⟩ := by
  have whole : root.edit r change (r.level height) p = .ok edited :=
    (Node.edit_eq_ok_iff word).mpr ⟨inside, below⟩
  exact bind_eq_ok_iff.mpr ⟨_, whole, rfl⟩

theorem set_filled (admits : r.Admits height offset length) (inside : i < length) :
    (filled f height offset length : Trie r α).set i x =
      .ok (.done, filled (Node.overwrite f (offset + i) x) height offset length) := by
  have := admits.inside
  have stop := admits.stop_le
  have below := Node.editBelow_replace (f := f) (x := x) admits.fits (p := offset + i) (by omega) (by omega)
    admits.level_lt
  have index : Word.add offset i = .ok (offset + i) := Word.add_of_lt rfl (by omega)
  rw [set, if_neg (by exact Nat.not_le.mpr inside), bind_eq_ok_iff]
  exact ⟨_, index, bind_eq_ok_iff.mpr ⟨_, edit_root admits.level_lt (by omega) below, rfl⟩⟩

theorem drop_filled (admits : r.Admits height offset length) (positive : 0 < n) (short : n < length) :
    (filled f height offset length : Trie r α).drop n =
      .ok (filled f height (offset + n) (length - n)) := by
  have := admits.inside
  have stop := admits.stop_le
  have below := Node.editBelow_keepFrom (f := f) admits.fits (p := offset + n) (by omega) (by omega)
    admits.level_lt
  have index : Word.add offset n = .ok (offset + n) := Word.add_of_lt rfl (by omega)
  have last : offset + length - 1 = offset + n + (length - n) - 1 := by omega
  rw [drop, if_neg (by omega), if_neg (by exact Nat.not_le.mpr short), bind_eq_ok_iff]
  refine ⟨_, index, bind_eq_ok_iff.mpr ⟨_, edit_root admits.level_lt (by omega) ?_, rfl⟩⟩
  exact last ▸ below

theorem take_filled (admits : r.Admits height offset length) (positive : 0 < n) (short : n < length) :
    (filled f height offset length : Trie r α).take n = .ok (filled f height offset n) := by
  have := admits.inside
  have stop := admits.stop_le
  have below := Node.editBelow_keepThrough (f := f) admits.fits (p := offset + n - 1) (by omega) (by omega)
    admits.level_lt
  have index : Word.add offset n = .ok (offset + n) := Word.add_of_lt rfl (by omega)
  rw [take, if_neg (by exact Nat.not_le.mpr short), if_neg (by omega), bind_eq_ok_iff]
  refine ⟨_, index, bind_eq_ok_iff.mpr ⟨_, edit_root admits.level_lt (by omega) below, ?_⟩⟩
  rfl

/-- A cut at the front removes nothing or everything, or it moves the start of the window. -/
theorem drop_cases (accepted : t.Accepted) (n : Nat) :
    (n = 0 ∧ t.drop n = .ok t) ∨ (t.length ≤ n ∧ t.drop n = .ok empty) ∨
    ∃ f height offset length, r.Admits height offset length ∧ r.Admits height (offset + n) (length - n) ∧
      0 < n ∧ n < length ∧ t = filled f height offset length ∧
      t.drop n = .ok (filled f height (offset + n) (length - n)) := by
  rcases Nat.eq_zero_or_pos n with zero | positive
  · exact .inl ⟨zero, if_pos zero⟩
  · by_cases all : t.length ≤ n
    · exact .inr (.inl ⟨all, (if_neg (Nat.ne_of_gt positive)).trans (if_pos all)⟩)
    · rcases accepted.cases with rfl | ⟨f, height, offset, length, admits, rfl⟩
      · exact absurd (Nat.zero_le n) all
      · have inside := admits.inside
        have short : n < length := Nat.not_le.mp all
        exact .inr (.inr ⟨f, height, offset, length, admits, ⟨by omega, by omega, admits.word⟩, positive,
          short, rfl, drop_filled admits positive short⟩)

/-- A cut at the back removes nothing or everything, or it moves the end of the window. -/
theorem take_cases (accepted : t.Accepted) (n : Nat) :
    (t.length ≤ n ∧ t.take n = .ok t) ∨ (n = 0 ∧ t.take n = .ok empty) ∨
    ∃ f height offset length, r.Admits height offset length ∧ r.Admits height offset n ∧
      0 < n ∧ n < length ∧ t = filled f height offset length ∧
      t.take n = .ok (filled f height offset n) := by
  by_cases all : t.length ≤ n
  · exact .inl ⟨all, if_pos all⟩
  · rcases Nat.eq_zero_or_pos n with zero | positive
    · exact .inr (.inl ⟨zero, (if_neg all).trans (if_pos zero)⟩)
    · rcases accepted.cases with rfl | ⟨f, height, offset, length, admits, rfl⟩
      · exact absurd (Nat.zero_le n) all
      · have inside := admits.inside
        have short : n < length := Nat.not_le.mp all
        exact .inr (.inr ⟨f, height, offset, length, admits, ⟨positive, by omega, admits.word⟩, positive,
          short, rfl, take_filled admits positive short⟩)

/-! Pushes. First room is made, where there is none; then the path of the new element is edited. -/

theorem isEmpty_filled (admits : r.Admits height offset length) :
    (filled f height offset length : Trie r α).isEmpty = false :=
  beq_false_of_ne (Nat.ne_of_gt admits.positive)

theorem isFullBack_filled (admits : r.Admits height offset length) :
    (filled f height offset length : Trie r α).isFullBack =
      .ok (decide (r.span (height + 1) < offset + length + 1)) := by
  have stop := admits.stop_le
  have add : Word.add offset length = .ok (offset + length) := Word.add_of_lt rfl (by omega)
  have next : Word.add (offset + length) 1 = .ok (offset + length + 1) := Word.add_of_lt rfl (by omega)
  rw [isFullBack, bind_eq_ok_iff]
  refine ⟨_, add, bind_eq_ok_iff.mpr ⟨_, next, bind_eq_ok_iff.mpr ⟨_, Radix.capacity_level admits.word, ?_⟩⟩⟩
  rfl

theorem roomBack_filled (admits : r.Admits height offset length)
    (room : offset + length < r.span (height + 1)) :
    (filled f height offset length : Trie r α).roomBack = .ok (filled f height offset length, none) := by
  rw [roomBack, isFullBack_filled admits, decide_eq_false (by omega)]
  rfl

theorem roomBack_full (admits : r.Admits height offset length)
    (full : offset + length = r.span (height + 1)) :
    (filled f height offset length : Trie r α).roomBack =
      .ok (filled f (height + 1) offset length, some ⟨length, r.level (height + 1)⟩) := by
  have positive := admits.positive
  have grown := Node.parentOf_filled_zero (r := r) (f := f) (by omega : offset ≤ offset + length - 1)
    (by rw [← full]; omega)
  rw [roomBack, isFullBack_filled admits, decide_eq_true (by omega)]
  unfold filled
  rw [← grown, Radix.level_succ]
  rfl

/-- The room that growing to the front adds is no wider than the new root. -/
theorem branchSpan_last (word : r.level height + r.bits ≤ 63) :
    branchSpan (r.size - 1) (r.level height) = .ok (r.lastSlot height) := by
  have small := Radix.span_succ_lt_word word
  have last := r.lastSlot_add_span height
  have room : (r.size - 1) * 2 ^ r.level height = r.lastSlot height := rfl
  exact Word.shiftLeft_of_lt (by omega) (by omega)

/-- Growing to the front moves the window below the last slot of the new root. -/
theorem roomFront_full (admits : r.Admits height 0 length)
    (word : r.level (height + 1) + r.bits ≤ 63) :
    (filled f height 0 length : Trie r α).roomFront =
      .ok (filled (fun p => f (p - r.lastSlot (height + 1))) (height + 1) (r.lastSlot (height + 1)) length,
        some ⟨length, r.level (height + 1)⟩) := by
  have positive := admits.positive
  have inside := admits.inside
  have last : r.lastSlot (height + 1) + length - 1 = 0 + length - 1 + r.lastSlot (height + 1) := by omega
  have grown := Node.parentOf_filled_last (r := r) (f := f) (by omega : 0 ≤ 0 + length - 1)
    (by omega : 0 + length - 1 < r.span (height + 1))
  have span := branchSpan_last word
  have grows : (filled f height 0 length : Trie r α).growFront = .ok
      (⟨some (.parentOf (.filled r f height 0 (0 + length - 1)) (r.size - 1)), r.lastSlot (height + 1),
        length, r.level (height + 1)⟩, some ⟨length, r.level (height + 1)⟩) := by
    rw [Radix.level_succ] at span ⊢
    exact bind_eq_ok_iff.mpr ⟨_, span, rfl⟩
  have full : (filled f height 0 length : Trie r α).isFullFront = true := rfl
  rw [roomFront, if_pos full, grows, grown]
  unfold filled
  rw [last, ← Radix.lastSlot, Nat.zero_add (r.lastSlot _)]

theorem pushBack_of_room {growth : Option Growth} (nonempty : t.isEmpty = false) (positive : 0 < length)
    (room : t.roomBack = .ok (filled f height offset length, growth))
    (admits : r.Admits height offset (length + 1)) :
    t.pushBack x =
      .ok (filled (Node.overwrite f (offset + length) x) height offset (length + 1), growth) := by
  have inside := admits.inside
  have stop := admits.stop_le
  have last : offset + length - 1 + 1 = offset + length := by omega
  have fits : r.Fits height offset (offset + length - 1 + 1) := .of_lt (by omega) (by omega)
  have below := Node.editBelow_pushBack (f := f) (x := x) (by omega) fits admits.level_lt
  rw [last] at below
  have index : Word.add offset length = .ok (offset + length) := Word.add_of_lt rfl (by omega)
  have count : Word.add length 1 = .ok (length + 1) := Word.add_of_lt rfl (by omega)
  rw [pushBack, if_neg (by rw [nonempty]; decide), bind_eq_ok_iff]
  refine ⟨_, room, bind_eq_ok_iff.mpr ⟨_, index, ?_⟩⟩
  refine bind_eq_ok_iff.mpr ⟨_, edit_root admits.level_lt (by omega) below, ?_⟩
  exact bind_eq_ok_iff.mpr ⟨_, count, rfl⟩

theorem pushFront_of_room {growth : Option Growth} (nonempty : t.isEmpty = false) (positive : 0 < length)
    (room : t.roomFront = .ok (filled f height (p + 1) length, growth))
    (admits : r.Admits height p (length + 1)) :
    t.pushFront x = .ok (filled (Node.overwrite f p x) height p (length + 1), growth) := by
  have inside := admits.inside
  have stop := admits.stop_le
  have last : p + (length + 1) - 1 = p + 1 + length - 1 := by omega
  have fits : r.Fits height p (p + 1 + length - 1) := .of_lt (by omega) (by omega)
  have below := Node.editBelow_pushFront (f := f) (x := x) (by omega) fits admits.level_lt
  have index : Word.sub (p + 1) 1 = .ok p := Word.sub_of_le (Nat.le_add_left 1 p)
  have count : Word.add length 1 = .ok (length + 1) := Word.add_of_lt rfl (by omega)
  rw [pushFront, if_neg (by rw [nonempty]; decide), bind_eq_ok_iff]
  refine ⟨_, room, bind_eq_ok_iff.mpr ⟨_, index, ?_⟩⟩
  refine bind_eq_ok_iff.mpr ⟨_, edit_root admits.level_lt (by omega) below, ?_⟩
  refine bind_eq_ok_iff.mpr ⟨_, count, ?_⟩
  rw [filled, last]
  rfl

theorem pushBack_filled (admits : r.Admits height offset length)
    (room : offset + length < r.span (height + 1)) :
    (filled f height offset length : Trie r α).pushBack x =
      .ok (filled (Node.overwrite f (offset + length) x) height offset (length + 1), none) :=
  pushBack_of_room (isEmpty_filled admits) admits.positive (roomBack_filled admits room)
    ⟨Nat.succ_pos _, room, admits.word⟩

theorem admits_grown (admits : r.Admits height offset length)
    (word : r.level (height + 1) + r.bits ≤ 63) : r.Admits (height + 1) offset (length + 1) := by
  have inside := admits.inside
  have wider := r.two_mul_span_le (height + 1)
  have positive := r.span_pos (height + 1)
  exact ⟨Nat.succ_pos _, by omega, word⟩

theorem pushBack_full (admits : r.Admits height offset length)
    (full : offset + length = r.span (height + 1)) (word : r.level (height + 1) + r.bits ≤ 63) :
    (filled f height offset length : Trie r α).pushBack x =
      .ok (filled (Node.overwrite f (offset + length) x) (height + 1) offset (length + 1),
        some ⟨length, r.level (height + 1)⟩) :=
  pushBack_of_room (isEmpty_filled admits) admits.positive (roomBack_full admits full)
    (admits_grown admits word)

theorem pushFront_filled (admits : r.Admits height (p + 1) length) :
    (filled f height (p + 1) length : Trie r α).pushFront x =
      .ok (filled (Node.overwrite f p x) height p (length + 1), none) :=
  pushFront_of_room (isEmpty_filled admits) admits.positive rfl
    ⟨Nat.succ_pos _, by have := admits.inside; omega, admits.word⟩

theorem pushFront_full (admits : r.Admits height 0 length) (word : r.level (height + 1) + r.bits ≤ 63) :
    (filled f height 0 length : Trie r α).pushFront x =
      .ok (filled (Node.overwrite (fun p => f (p - r.lastSlot (height + 1))) (r.lastSlot (height + 1) - 1) x)
          (height + 1) (r.lastSlot (height + 1) - 1) (length + 1),
        some ⟨length, r.level (height + 1)⟩) := by
  have inside := admits.inside
  have positive := r.lastSlot_pos (height + 1)
  have slots := r.lastSlot_add_span (height + 1)
  have room := roomFront_full (f := f) admits word
  obtain ⟨p, last⟩ := Nat.exists_eq_add_one_of_ne_zero (Nat.ne_of_gt positive)
  rw [last] at room ⊢
  exact pushFront_of_room (isEmpty_filled admits) admits.positive room
    ⟨Nat.succ_pos _, by omega, word⟩

end DigitTrie.Trie
