import DigitTrie.Proofs.Packing

/-! Packing level by level, for any sequence that can be counted in a word. No counter runs over on the way, all
runs but the last one fill a node, the tree is the lowest one with room for the sequence, and it passes
its audit and finds each element under its own index. A full tree of that height may well have more indices than
there are words. -/
namespace DigitTrie

variable {r : Radix} {α : Type} {xs : List α}

namespace Radix

theorem chunks_full (r : Radix) (xs : List α) :
    (∀ run ∈ r.chunks xs, run ≠ [] ∧ run.length ≤ r.size) ∧
      ∀ run ∈ (r.chunks xs).dropLast, run.length = r.size := by
  have positive := r.size_pos
  fun_induction chunks r xs with
  | case1 => simp
  | case2 x rest ih =>
    obtain ⟨used, full⟩ := ih
    refine ⟨List.forall_mem_cons.mpr ⟨⟨?_, ?_⟩, used⟩, fun run member => ?_⟩
    · exact List.ne_nil_of_length_pos (by rw [List.length_take, List.length_cons]; omega)
    · exact List.length_take_le _ _
    · -- The first run is followed by another one only where it could not take all elements.
      cases behind : r.chunks ((x :: rest).drop r.size) with
      | nil => simp [behind] at member
      | cons next others =>
        rw [behind, List.dropLast_cons_of_ne_nil (List.cons_ne_nil _ _), List.mem_cons] at member
        rcases member with rfl | member
        · have more : (x :: rest).drop r.size ≠ [] := by
            intro ended
            simp [ended, chunks] at behind
          rw [List.length_take, Nat.min_eq_left]
          exact Nat.le_of_lt (by simpa using more)
        · exact full run (behind ▸ member)

end Radix

namespace Node

theorem leafAt_zero (r : Radix) (f : Nat → α) (last p : Nat) :
    ∃ slots, leafAt r f 0 last p = ⟨0, slots⟩ := by
  rw [leafAt, Nat.zero_max, Nat.mul_mod_left]
  exact ⟨_, rfl⟩

end Node

/-- What a packed tree is for the sequence that was packed: it has its length, no lower root has room for it, and
its elements are found under their indices, each in a leaf that starts at digit zero. -/
structure Packed.Serves (r : Radix) (xs : List α) (packed : Packed α) : Prop where
  length : packed.length = xs.length
  aligned : r.bits ∣ packed.level
  room : xs.length ≤ r.size * 2 ^ packed.level
  least : ∀ level, r.bits ∣ level → xs.length ≤ r.size * 2 ^ level → packed.level ≤ level
  starts : packed.root.FromZero
  audited : packed.root.auditRoot r packed.level 0 packed.length = .ok ()
  found : ∀ i x, xs[i]? = some x → ∃ slots,
    packed.root.findLeaf r packed.level i = .ok (some ⟨0, slots⟩) ∧ slots[r.lastDigit i]? = some x

theorem Packed.serves_of_pack (used : xs ≠ []) (few : xs.length < 2 ^ 64) :
    ∃ packed, Node.pack r xs = .ok (some packed) ∧ packed.Serves r xs := by
  have positive := List.length_pos_iff.mpr used
  obtain ⟨f, height, built, elements, room, least⟩ := Node.pack_filled (r := r) used few
  have word : r.level height < 64 := by
    rcases least with rfl | lower
    · rw [Radix.level_zero]
      decide
    · exact Node.level_of_pair (Nat.le_of_lt lower) few
  refine ⟨_, built, rfl, Nat.dvd_mul_left _ _, ?_, fun level aligned enough => ?_, Node.pack_fromZero built, ?_,
    fun i x here => ?_⟩
  · rwa [Radix.size_mul_two_pow_level]
  · obtain ⟨top, rfl⟩ := Radix.eq_level_of_mod_bits (Nat.mod_eq_zero_of_dvd aligned)
    rw [Radix.size_mul_two_pow_level] at enough
    exact Nat.mul_le_mul_right _ (Radix.height_le enough least)
  · have audited : (Node.filled r f height 0 (0 + xs.length - 1)).auditRoot r (r.level height) 0 xs.length =
        .ok () := Node.auditRoot_filled positive (by omega) word (by omega)
    rwa [Nat.zero_add] at audited
  · obtain ⟨inside, -⟩ := List.getElem?_eq_some_iff.mp here
    have fits : r.Fits height 0 (xs.length - 1) := .of_lt (Nat.zero_le _) (by omega)
    have left := Nat.zero_le i
    have right : i ≤ xs.length - 1 := by omega
    have element : x = f i := by
      rw [← elements, List.getElem?_map, List.getElem?_range' inside] at here
      simpa using here.symm
    have found := Node.findLeaf_filled (f := f) fits left right word
    have slot := Node.at?_leafAt (r := r) (f := f) left right
    obtain ⟨slots, leaf⟩ := Node.leafAt_zero r f (xs.length - 1) i
    rw [leaf] at found slot
    refine ⟨slots, found, ?_⟩
    rwa [Leaf.at?, Slots.at?_of_le (Nat.zero_le _), Nat.sub_zero, ← element] at slot

/-- A sequence that can be counted in a word is packed level by level, and each step goes as it should: it is cut
into runs that lose nothing, all but the last of them full; no counter runs over; there is a tree unless there are
no elements; and the tree is the lowest one that holds the sequence, in order and from index zero on. -/
theorem packed_least (few : xs.length < 2 ^ 64) :
    (r.chunks xs).flatten = xs ∧
    (∀ run ∈ r.chunks xs, run ≠ [] ∧ run.length ≤ r.size) ∧
    (∀ run ∈ (r.chunks xs).dropLast, run.length = r.size) ∧
    ∃ built, Node.pack r xs = .ok built ∧ (built = none ↔ xs = []) ∧
      ∀ packed, built = some packed → packed.Serves r xs := by
  refine ⟨r.flatten_chunks xs, (r.chunks_full xs).1, (r.chunks_full xs).2, ?_⟩
  by_cases used : xs = []
  · subst used
    exact ⟨none, Node.pack_nil, by simp, by simp⟩
  · obtain ⟨packed, built, serves⟩ := Packed.serves_of_pack (r := r) used few
    refine ⟨some packed, built, by simp [used], fun other same => ?_⟩
    cases same
    exact serves

/-- One element more than two levels of two slots hold: a third level, with one path to the last element. -/
theorem packed_least_fifth :
    ['a', 'b', 'c', 'd', 'e'].length < 2 ^ 64 ∧
    ∃ packed, Node.pack Radix.binary ['a', 'b', 'c', 'd', 'e'] = .ok (some packed) ∧
      packed.root = .interior 0 [.interior 0 [.leaf 0 ['a', 'b'], .leaf 0 ['c', 'd']],
        .interior 0 [.leaf 0 ['e']]] ∧
      packed.Serves Radix.binary ['a', 'b', 'c', 'd', 'e'] := by
  have few : ['a', 'b', 'c', 'd', 'e'].length < 2 ^ 64 := by decide
  have tree : Node.pack Radix.binary ['a', 'b', 'c', 'd', 'e'] =
      .ok (some ⟨.interior 0 [.interior 0 [.leaf 0 ['a', 'b'], .leaf 0 ['c', 'd']],
        .interior 0 [.leaf 0 ['e']]], 2, 5⟩) := by cbv
  obtain ⟨-, -, -, built, packed, -, serves⟩ := packed_least (r := Radix.binary) few
  cases tree.symm.trans packed
  exact ⟨few, _, tree, rfl, serves _ rfl⟩

end DigitTrie
