import DigitTrie.Proofs.Acceptance

/-! What an audit is worth. `InOrder` says that a trie fits together without a word about walks, edges or
counts: the physical indices that the tree spells are those of the window. An audit accepts exactly the
tries in order, however broken the others are. -/
namespace DigitTrie.Trie

variable {r : Radix} {α : Type} {f : Nat → α} {root : Node α} {t : Trie r α} {height offset length : Nat}

/-- A tree with the window of the trie: every node is where its level puts it and has slots in use, and
the paths to the elements spell the physical indices of the window, all of them words. -/
structure Stores (t : Trie r α) (root : Node α) : Prop where
  used : 1 ≤ t.length
  aligned : t.level % r.bits = 0
  inside : t.offset + t.length ≤ r.size * 2 ^ t.level
  word : r.size * 2 ^ t.level < 2 ^ 64
  shaped : root.Shaped r t.level
  occupied : root.Occupied
  indices : ∀ p, (∃ x, (p, x) ∈ root.entries r t.level 0) ↔ t.offset ≤ p ∧ p < t.offset + t.length

def InOrder (t : Trie r α) : Prop :=
  match t.root with
  | none => t.offset = 0 ∧ t.length = 0 ∧ t.level = 0
  | some root => t.Stores root

theorem entries_root (admits : r.Admits height offset length) :
    (Node.filled r f height offset (offset + length - 1)).entries r (r.level height) 0 =
      (List.range' offset length).map fun p => (p, f p) := by
  have positive := admits.positive
  have inside := admits.inside
  have count : offset + length - 1 + 1 - offset = length := by omega
  have entries := Node.entries_filled (f := f) admits.fits
  rwa [Nat.div_eq_of_lt (by omega), Nat.zero_mul, count] at entries

theorem filled_inOrder (admits : r.Admits height offset length) :
    (filled f height offset length : Trie r α).InOrder := by
  have positive := admits.positive
  have inside := admits.inside
  have small := Radix.span_succ_lt_word admits.word
  rw [← Radix.size_mul_two_pow_level] at inside small
  refine ⟨positive, Radix.level_mod_bits, inside, ?_, Node.filled_shaped admits.fits,
    Node.filled_occupied (by omega), fun p => ?_⟩
  · change r.size * 2 ^ r.level height < 2 ^ 64
    omega
  · change (∃ x, (p, x) ∈ (Node.filled r f height offset _).entries r (r.level height) 0) ↔ _
    rw [entries_root admits]
    simp [filled, List.mem_range'_1]

theorem Accepted.inOrder (accepted : t.Accepted) : t.InOrder := by
  rcases accepted.cases with rfl | ⟨f, height, offset, length, admits, rfl⟩
  · exact ⟨rfl, rfl, rfl⟩
  · exact filled_inOrder admits

theorem Stores.entries (stores : t.Stores root) :
    ∃ f : Nat → α, root.entries r t.level 0 =
      (List.range' t.offset t.length).map fun p => (p, f p) := by
  refine Node.exists_elements stores.used ?_
  have sorted : ((root.entries r t.level 0).map Prod.fst).Pairwise (· < ·) :=
    List.pairwise_map.mpr (Node.entries_sorted stores.shaped)
  refine sorted.eq_of_mem_iff (List.pairwise_lt_range' 1 (by decide)) fun p => ?_
  rw [List.mem_range'_1, ← stores.indices]
  simp

theorem Stores.eq_filled (stores : t.Stores root) (tree : t.root = some root) :
    ∃ f height, r.Admits height t.offset t.length ∧ t = filled f height t.offset t.length := by
  obtain ⟨f, entries⟩ := stores.entries
  obtain ⟨height, level⟩ := Radix.eq_level_of_mod_bits stores.aligned
  have inside := stores.inside
  have word := stores.word
  have shaped := stores.shaped
  rw [level] at entries inside word shaped
  have bits : r.level height + r.bits ≤ 63 := by
    rw [Radix.size_eq, ← Nat.pow_add, Nat.pow_lt_pow_iff_right (by decide)] at word
    omega
  rw [Radix.size_mul_two_pow_level] at inside
  have canonical := Node.eq_filled shaped stores.occupied 0 stores.used
    (by rw [Nat.zero_mul]; exact entries)
  refine ⟨f, height, ⟨stores.used, inside, bits⟩, ?_⟩
  rw [filled, ← canonical, ← tree, ← level]

theorem InOrder.accepted (inOrder : t.InOrder) : t.Accepted := by
  obtain ⟨root, offset, length, level⟩ := t
  cases root with
  | none =>
    obtain ⟨rfl, rfl, rfl⟩ := inOrder
    exact empty_accepted
  | some root =>
    obtain ⟨f, height, admits, same⟩ := Stores.eq_filled inOrder rfl
    rw [same]
    exact filled_accepted admits

theorem mapM_get? (accepted : t.Accepted) :
    (List.range t.length).mapM t.get? = .ok (t.toList.map some) := by
  have each : t.get? = fun i => pure t.toList[i]? := funext (get?_toList accepted)
  rw [each, List.mapM_pure, ← length_toList accepted]
  refine congrArg Except.ok (List.ext_getElem (by simp) fun i _ _ => ?_)
  simp

/-- An audit accepts exactly the tries in order, and what it accepts can be read: each index of an
accepted trie has its element, and the elements read are the elements of the tree, in their order. -/
theorem audit_exact (t : Trie r α) :
    (t.Accepted ↔ t.InOrder) ∧
      (t.Accepted →
        (∀ i, i < t.length → ∃ x, t.get? i = .ok (some x)) ∧
        (List.range t.length).mapM t.get? = .ok (t.toList.map some)) := by
  refine ⟨⟨Accepted.inOrder, InOrder.accepted⟩, fun accepted => ⟨fun i inside => ?_, mapM_get? accepted⟩⟩
  have short : i < t.toList.length := by rwa [length_toList accepted]
  exact ⟨t.toList[i], by rw [get?_toList accepted, List.getElem?_eq_getElem short]⟩

end DigitTrie.Trie
