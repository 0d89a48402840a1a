import DigitTrie.Proofs.Collecting
import DigitTrie.Proofs.Views

/-! Written and read back. What is written of a trie is its elements, so reading that back forgets the layout:
the trie that comes out is the packed one, which starts at index zero in every node and stands as low as its
length allows. It is equal to the trie that was written, and writing it again changes nothing any more. -/
namespace DigitTrie

variable {r : Radix} {α : Type} {xs : List α} {t : Trie r α} {level : Nat}

namespace Trie

/-- The layout that says nothing about the past of a trie: every node starts at digit zero, no lower root
has room for the elements, and without elements there is nothing at all. -/
structure Normal (t : Trie r α) : Prop where
  offset : t.offset = 0
  starts : ∀ root, t.root = some root → root.FromZero
  aligned : r.bits ∣ t.level
  room : t.length ≤ r.size * 2 ^ t.level
  least : ∀ level, r.bits ∣ level → t.length ≤ r.size * 2 ^ level → t.level ≤ level
  vacant : t.length = 0 → t = empty

theorem Accepted.aligned (accepted : t.Accepted) : r.bits ∣ t.level := by
  rcases accepted.cases with rfl | ⟨f, height, offset, length, -, rfl⟩
  · exact Nat.dvd_zero _
  · exact Nat.dvd_mul_left _ _

/-- The elements of an accepted trie fit below its own root. -/
theorem Accepted.room (accepted : t.Accepted) : t.length ≤ r.size * 2 ^ t.level :=
  Nat.le_trans (Nat.le_add_left _ _) accepted.inside

theorem Accepted.collectable (accepted : t.Accepted) : Collectable r t.toList := by
  rcases accepted.level_le with word | rfl
  · exact ⟨t.level, accepted.aligned, word, by rw [length_toList accepted]; exact accepted.room⟩
  · have bits := r.bits_le
    exact ⟨0, Nat.dvd_zero _, by omega, Nat.zero_le _⟩

theorem ofList_fromZero {root : Node α} (packed : ofList xs = .ok t) (tree : t.root = some root) :
    root.FromZero := by
  obtain ⟨built, built_ok, same⟩ := bind_eq_ok_iff.mp packed
  cases built with
  | none =>
    cases same
    cases tree
  | some packed =>
    cases same
    cases tree
    exact Node.pack_fromZero built_ok

/-- Two roots of different levels are a whole digit apart, so a lower root than that of a snug trie has no
room for the elements. -/
theorem Snug.least_level (snug : t.Snug) (aligned : r.bits ∣ level) (room : t.length ≤ r.size * 2 ^ level) :
    t.level ≤ level := by
  refine Nat.le_of_not_lt fun lower => ?_
  have apart : r.bits ≤ t.level - level :=
    Nat.le_of_dvd (Nat.sub_pos_of_lt lower) (Nat.dvd_sub snug.accepted.aligned aligned)
  rcases snug.least with bottom | used
  · omega
  · have wider : 2 ^ (level + r.bits) ≤ 2 ^ t.level := Nat.pow_le_pow_right (by decide) (by omega)
    rw [Radix.two_pow_add_bits] at wider
    omega

theorem Snug.normal (snug : t.Snug) : t.Normal where
  offset := snug.offset
  starts _ tree := ofList_fromZero snug.ofList_eq tree
  aligned := snug.accepted.aligned
  room := snug.accepted.room
  least _ aligned room := snug.least_level aligned room
  vacant := snug.accepted.eq_empty

theorem serialize_of_elements (accepted : t.Accepted) (elements : t.toList = xs) :
    t.serialize = .ok ⟨xs.length, xs⟩ := by
  rw [serialize_toList accepted, ← length_toList accepted, elements]

/-- Reading back what was written of a trie gives an equal trie in the normal layout, no higher than the one
that was written, and from then on writing and reading back changes nothing. Any sequence that can be
collected comes back as it was. -/
theorem round_trip_normalizes [DecidableEq α] :
    (∀ t : Trie r α, t.Accepted → ∃ s u, t.serialize = .ok s ∧ s.announced = t.length ∧
      s.items = t.toList ∧ deserialize s.items = .ok u ∧ u.Accepted ∧ u.equal t = .ok true ∧
      ofList t.toList = .ok u ∧ u.Normal ∧ u.length = t.length ∧ u.level ≤ t.level ∧
      u.serialize = .ok s) ∧
    (∀ xs : List α, Collectable r xs → ∃ u : Trie r α, deserialize xs = .ok u ∧
      u.serialize = .ok ⟨xs.length, xs⟩) := by
  refine ⟨fun t accepted => ?_, fun xs collectable => ?_⟩
  · obtain ⟨u, packed, u_accepted, elements⟩ := ofList_toList accepted.collectable
    have normal := (snug_of_ofList u_accepted packed).normal
    have length : u.length = t.length := by
      rw [← length_toList u_accepted, elements, length_toList accepted]
    have lower := normal.least t.level accepted.aligned (length ▸ accepted.room)
    have same : u.equal t = .ok true := by
      rw [equal_toList u_accepted accepted, elements, decide_eq_true rfl]
    have again : u.serialize = .ok ⟨t.length, t.toList⟩ := by
      rw [serialize_of_elements u_accepted elements, length_toList accepted]
    exact ⟨⟨t.length, t.toList⟩, u, serialize_toList accepted, rfl, rfl, packed, u_accepted, same, packed,
      normal, length, lower, again⟩
  · obtain ⟨u, packed, u_accepted, elements⟩ := ofList_toList collectable
    exact ⟨u, packed, serialize_of_elements u_accepted elements⟩

/-- Three elements in the midst of a tree of three levels come back in a tree of two levels. -/
theorem round_trip_normalizes_midst :
    (filled id 2 3 3 : Trie Radix.binary Nat).Accepted ∧
      (∃ (s : Serial Nat) (u : Trie Radix.binary Nat),
        (filled id 2 3 3 : Trie Radix.binary Nat).serialize = .ok s ∧ s.items = [3, 4, 5] ∧
        deserialize s.items = .ok u ∧ u.Normal ∧ u.serialize = .ok s) ∧
      ∃ u : Trie Radix.binary Char, deserialize ['a', 'b', 'c'] = .ok u ∧
        u.serialize = .ok ⟨3, ['a', 'b', 'c']⟩ := by
  have accepted : (filled id 2 3 3 : Trie Radix.binary Nat).Accepted :=
    filled_accepted ⟨by decide, by decide, by decide⟩
  have three : Collectable Radix.binary ['a', 'b', 'c'] := ⟨1, by decide, by decide, by decide⟩
  obtain ⟨s, u, written, -, items, back, -, -, -, normal, -, -, again⟩ :=
    round_trip_normalizes.1 (filled id 2 3 3 : Trie Radix.binary Nat) accepted
  exact ⟨accepted, ⟨s, u, written, items, back, normal, again⟩, round_trip_normalizes.2 _ three⟩

end Trie

end DigitTrie
