import DigitTrie.Proofs.Canonical

/-! Collecting at once and pushing one by one. A sequence that is collected is packed from the leaves up,
and one that is pushed grows from the root down; what both keep is that the trie is `Snug`: it starts at
index zero and stands no higher than its length asks for. There is one snug trie for each sequence, so both
ways lead to the same tree, also where a further element makes a further level. -/
namespace DigitTrie.Trie

variable {r : Radix} {α : Type} {x : α} {t u v : Trie r α} {growth : Option Growth}
  {growths further : List Growth} {xs ys : List α}

/-- The trie starts at index zero, and no lower root has room for its elements. -/
structure Snug (t : Trie r α) : Prop where
  accepted : t.Accepted
  offset : t.offset = 0
  least : t.level = 0 ∨ 2 ^ t.level < t.length

theorem snug_empty : (empty : Trie r α).Snug := ⟨empty_accepted, rfl, .inl rfl⟩

namespace Snug

/-- There is one snug trie for each sequence, the packed one. -/
theorem ofList_eq (snug : t.Snug) : ofList t.toList = .ok t := by
  rcases snug.accepted.cases with rfl | ⟨f, height, offset, length, admits, rfl⟩
  · exact ofList_nil
  · cases snug.offset
    have least : height = 0 ∨ r.span height < length := by
      exact snug.least.imp_left fun bottom => Radix.level_injective (bottom.trans Radix.level_zero.symm)
    have listed := toList_filled (f := f) admits
    have count : (filled f height 0 length : Trie r α).toList.length = length := by simp [listed]
    have used : (filled f height 0 length : Trie r α).toList ≠ [] := by
      rw [← List.length_pos_iff, count]
      exact admits.positive
    have inside := admits.inside
    have stop := admits.stop_le
    rw [Nat.zero_add] at inside
    obtain ⟨g, top, packed, elements, room, lowest⟩ := ofList_filled (r := r) used (by omega)
    rw [count] at packed elements room lowest
    cases Nat.le_antisymm (Radix.height_le room least) (Radix.height_le inside lowest)
    rw [packed, filled_congr admits.positive (listed.symm.trans elements.symm)]

/-- A push keeps a trie snug: it adds a level only if the element has no room without it. -/
theorem pushBack (snug : t.Snug) (room : ¬ t.BackBlocked) (pushed : t.pushBack x = .ok (u, growth)) :
    u.Snug := by
  have inside := snug.accepted.inside
  have start := snug.offset
  by_cases full : t.offset + t.length = r.size * 2 ^ t.level
  · have word : t.level + 2 * r.bits ≤ 63 := Nat.not_lt.mp fun high => room ⟨full, high⟩
    obtain ⟨_, again, accepted, -, window⟩ := pushBack_grows snug.accepted full word x
    cases pushed.symm.trans again
    obtain ⟨level, offset, length⟩ := Window.mk.inj window
    refine ⟨accepted, offset.trans start, .inr ?_⟩
    rw [level, length, Radix.two_pow_add_bits]
    omega
  · obtain ⟨_, again, accepted, -, window⟩ := pushBack_room snug.accepted (by omega) x
    cases pushed.symm.trans again
    obtain ⟨level, offset, length⟩ := Window.mk.inj window
    refine ⟨accepted, offset.trans start, ?_⟩
    rw [level, length]
    exact snug.least.imp_right Nat.lt_succ_of_lt

theorem pushAll (snug : t.Snug) (allowed : t.PushesAllowed xs)
    (pushed : t.pushAll Trie.pushBack xs = .ok (u, growths)) : u.Snug := by
  induction xs generalizing t growths with
  | nil =>
    cases pushed
    exact snug
  | cons x xs ih =>
    obtain ⟨s, growth, rest, first, others, -⟩ := pushAll_cons_eq_ok_iff.mp pushed
    exact ih (snug.pushBack allowed.1 first) (allowed.2 s growth first) others

/-- A snug trie is not blocked as long as any root with a word for its capacity has room for one more. -/
theorem not_backBlocked (snug : t.Snug) (collectable : Collectable r (t.toList ++ x :: xs)) :
    ¬ t.BackBlocked := by
  rcases snug.accepted.cases with rfl | ⟨f, height, offset, length, admits, rfl⟩
  · have small := r.bits_le
    rintro ⟨-, high⟩
    have low : ¬ 63 < 0 + 2 * r.bits := by omega
    exact low high
  · rintro ⟨full, high⟩
    cases snug.offset
    obtain ⟨_, ⟨n, rfl⟩, word, room⟩ := collectable
    rw [Nat.mul_comm r.bits] at word room
    simp only [offset_filled, length_filled, level_filled, Radix.size_mul_two_pow_level] at full high
    have room : (_ ++ x :: xs).length ≤ r.size * 2 ^ r.level n := room
    simp only [List.length_append, List.length_cons, length_toList snug.accepted, length_filled,
      Radix.size_mul_two_pow_level] at room
    -- The roots with room stand at least one level higher, and that one more level is the one asked for.
    have above : height + 1 ≤ n := by
      refine Nat.lt_of_not_le fun low => ?_
      have wider : r.span (n + 1) ≤ r.span (height + 1) := r.span_le_of_le (Nat.succ_le_succ low)
      omega
    have level : r.level (height + 1) ≤ n * r.bits := Nat.mul_le_mul_right _ above
    rw [Radix.level_succ] at level
    omega

theorem pushesAllowed (snug : t.Snug) (collectable : Collectable r (t.toList ++ xs)) :
    t.PushesAllowed xs := by
  induction xs generalizing t with
  | nil => exact trivial
  | cons x xs ih =>
    have room := snug.not_backBlocked collectable
    refine ⟨room, fun u growth pushed => ih (snug.pushBack room pushed) ?_⟩
    obtain ⟨_, _, again, -, elements⟩ := pushBack_toList snug.accepted room x
    cases pushed.symm.trans again
    simpa [elements] using collectable

end Snug

theorem snug_of_ofList (accepted : t.Accepted) (packed : ofList xs = .ok t) : t.Snug := by
  rcases ofList_cases packed with ⟨-, rfl⟩ | ⟨-, f, height, rfl, -, -, least⟩
  · exact snug_empty
  · exact ⟨accepted, rfl, least.imp_left fun bottom => by simp [bottom]⟩

/-! Several pushes, in parts. -/

theorem pushesAllowed_append : t.PushesAllowed (xs ++ ys) ↔ t.PushesAllowed xs ∧
    ∀ u growths, t.pushAll pushBack xs = .ok (u, growths) → u.PushesAllowed ys := by
  induction xs generalizing t with
  | nil =>
    constructor
    · intro allowed
      refine ⟨trivial, fun u growths pushed => ?_⟩
      cases pushed
      exact allowed
    · rintro ⟨-, allowed⟩
      exact allowed t [] rfl
  | cons x xs ih =>
    constructor
    · rintro ⟨room, allowed⟩
      refine ⟨⟨room, fun s growth first => (ih.mp (allowed s growth first)).1⟩, fun u growths pushed => ?_⟩
      obtain ⟨s, growth, rest, first, others, -⟩ := pushAll_cons_eq_ok_iff.mp pushed
      exact (ih.mp (allowed s growth first)).2 u rest others
    · rintro ⟨⟨room, allowed⟩, later⟩
      refine ⟨room, fun s growth first => ih.mpr ⟨allowed s growth first, fun u rest others => ?_⟩⟩
      exact later u _ (pushAll_cons_eq_ok_iff.mpr ⟨s, growth, rest, first, others, rfl⟩)

theorem pushAll_append {push : Trie r α → α → Except Fault (Trie r α × Option Growth)}
    (pushed : t.pushAll push xs = .ok (u, growths)) (then_pushed : u.pushAll push ys = .ok (v, further)) :
    t.pushAll push (xs ++ ys) = .ok (v, growths ++ further) := by
  induction xs generalizing t growths with
  | nil =>
    cases pushed
    exact then_pushed
  | cons x xs ih =>
    obtain ⟨s, growth, rest, first, others, rfl⟩ := pushAll_cons_eq_ok_iff.mp pushed
    rw [List.cons_append, List.append_assoc]
    exact pushAll_cons_eq_ok_iff.mpr ⟨s, growth, _, first, ih others, rfl⟩

theorem extend_eq_pushAll (accepted : t.Accepted) (allowed : t.PushesAllowed xs) :
    ∃ u growths reported, t.pushAll pushBack xs = .ok (u, growths) ∧ t.extend xs = .ok (u, reported) ∧
      u.Accepted := by
  obtain ⟨u, growths, pushed, u_accepted, elements⟩ := pushAll_toList accepted allowed
  by_cases vacant : t.isEmpty = true
  · cases accepted.eq_empty (beq_iff_eq.mp vacant)
    have packed := (snug_empty.pushAll allowed pushed).ofList_eq
    rw [elements, toList_empty, List.nil_append] at packed
    exact ⟨u, growths, [], pushed, bind_eq_ok_iff.mpr ⟨u, packed, rfl⟩, u_accepted⟩
  · exact ⟨u, growths, growths, pushed, (if_neg vacant).trans pushed, u_accepted⟩

/-- Collecting a sequence gives the trie that pushing its elements gives, and so does extending: on any
accepted trie, all at once or in parts. -/
theorem collecting_is_pushing :
    (∀ xs : List α, Collectable r xs →
      ∃ u growths, ofList xs = .ok u ∧ (empty : Trie r α).pushAll pushBack xs = .ok (u, growths) ∧
        u.offset = 0 ∧ u.length = xs.length) ∧
    (∀ t : Trie r α, t.Accepted → ∀ xs, t.PushesAllowed xs →
      ∃ u growths reported, t.pushAll pushBack xs = .ok (u, growths) ∧ t.extend xs = .ok (u, reported)) ∧
    (∀ t : Trie r α, t.Accepted → ∀ xs ys, t.PushesAllowed (xs ++ ys) →
      ∃ u v first second whole, t.extend xs = .ok (u, first) ∧ u.extend ys = .ok (v, second) ∧
        t.extend (xs ++ ys) = .ok (v, whole)) := by
  refine ⟨fun xs collectable => ?_, fun t accepted xs allowed => ?_, fun t accepted xs ys allowed => ?_⟩
  · have allowed : (empty : Trie r α).PushesAllowed xs := snug_empty.pushesAllowed collectable
    obtain ⟨u, growths, pushed, u_accepted, elements⟩ := pushAll_toList empty_accepted allowed
    have snug := snug_empty.pushAll allowed pushed
    have packed := snug.ofList_eq
    have length := length_toList u_accepted
    rw [elements, toList_empty, List.nil_append] at packed length
    exact ⟨u, growths, packed, pushed, snug.offset, length.symm⟩
  · obtain ⟨u, growths, reported, pushed, extended, -⟩ := extend_eq_pushAll accepted allowed
    exact ⟨u, growths, reported, pushed, extended⟩
  · obtain ⟨front, behind⟩ := pushesAllowed_append.mp allowed
    obtain ⟨u, growths, first, pushed, extended, u_accepted⟩ := extend_eq_pushAll accepted front
    obtain ⟨v, further, second, then_pushed, then_extended, -⟩ :=
      extend_eq_pushAll u_accepted (behind u growths pushed)
    obtain ⟨_, _, whole, together, at_once, -⟩ := extend_eq_pushAll accepted allowed
    cases together.symm.trans (pushAll_append pushed then_pushed)
    exact ⟨u, v, first, second, whole, extended, then_extended, at_once⟩

/-- One element more than a leaf holds, collected; and a full leaf, extended in two parts. -/
theorem collecting_is_pushing_full_leaf :
    Collectable Radix.binary ['a', 'b', 'c'] ∧
    (∃ (u : Trie Radix.binary Char) (growths : List Growth), ofList ['a', 'b', 'c'] = .ok u ∧
      empty.pushAll pushBack ['a', 'b', 'c'] = .ok (u, growths)) ∧
    ∃ t : Trie Radix.binary Char, ofList ['a', 'b'] = .ok t ∧
      t.PushesAllowed (['c'] ++ ['d', 'e']) ∧
      ∃ u v first second whole, t.extend ['c'] = .ok (u, first) ∧ u.extend ['d', 'e'] = .ok (v, second) ∧
        t.extend ['c', 'd', 'e'] = .ok (v, whole) := by
  have three : Collectable Radix.binary ['a', 'b', 'c'] := ⟨1, by decide, by decide, by decide⟩
  have two : Collectable Radix.binary ['a', 'b'] := ⟨0, by decide, by decide, by decide⟩
  have five : Collectable Radix.binary (['a', 'b'] ++ ['c', 'd', 'e']) :=
    ⟨2, by decide, by decide, by decide⟩
  obtain ⟨t, packed, accepted, elements⟩ := ofList_toList two
  have allowed := (snug_of_ofList accepted packed).pushesAllowed (elements.symm ▸ five)
  obtain ⟨u, growths, collected, pushed, -⟩ := collecting_is_pushing.1 ['a', 'b', 'c'] three
  exact ⟨three, ⟨u, growths, collected, pushed⟩, t, packed, allowed,
    collecting_is_pushing.2.2 t accepted ['c'] ['d', 'e'] allowed⟩

end DigitTrie.Trie
