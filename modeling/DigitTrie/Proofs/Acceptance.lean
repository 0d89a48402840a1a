import Mathlib.Data.List.Sort
import DigitTrie.Trie.Audit
import DigitTrie.Proofs.AuditedTree

/-! The accepted tries. Apart from the empty trie, an audit accepts exactly the tries whose tree is the
tree of their window; what an audit means for lookups and for the stored elements follows from that. -/
namespace DigitTrie

variable {r : Radix} {α : Type} {f g : Nat → α} {root : Node α} {t : Trie r α}
  {height offset length level first n i : Nat}

namespace Radix

/-- A capacity that is not zero has lost no bits. -/
theorem capacity_word (eq : r.capacity level = .ok n) (positive : 0 < n) : level + r.bits ≤ 63 := by
  rw [capacity, Word.shiftLeft_eq_ok_iff, Nat.shiftLeft_eq, size_eq, ← Nat.pow_add, Word.limit_eq] at eq
  by_contra large
  have lost : 2 ^ 64 ∣ 2 ^ (r.bits + level) := Nat.pow_dvd_pow 2 (by omega)
  have := Nat.mod_eq_zero_of_dvd lost
  omega

/-- A window that a root at `height` can have, when all its physical indices are words. -/
structure Admits (r : Radix) (height offset length : Nat) : Prop where
  positive : 0 < length
  inside : offset + length ≤ r.span (height + 1)
  word : r.level height + r.bits ≤ 63

namespace Admits

theorem fits (admits : r.Admits height offset length) : r.Fits height offset (offset + length - 1) := by
  have := admits.positive
  have := admits.inside
  exact .of_lt (by omega) (by omega)

theorem stop_le (admits : r.Admits height offset length) : offset + length ≤ 2 ^ 63 :=
  Nat.le_trans admits.inside (span_succ_lt_word admits.word)

theorem level_lt (admits : r.Admits height offset length) : r.level height < 64 := by
  have := admits.word
  omega

end Admits

end Radix

namespace Node

theorem exists_elements {entries : List (Nat × α)} (positive : 0 < n)
    (indices : entries.map Prod.fst = List.range' first n) :
    ∃ f : Nat → α, entries = (List.range' first n).map fun p => (p, f p) := by
  have count : entries.length = n := by simpa using congrArg List.length indices
  refine ⟨fun p => ((entries[p - first]?).getD entries[0]).2, ?_⟩
  apply List.ext_getElem
  · simpa using count
  · intro i used _
    have index : entries[i].1 = first + i := by
      have here := List.getElem_of_eq indices (by simpa using used)
      simpa using here
    simp only [List.getElem_map, List.getElem_range', Nat.one_mul, Nat.add_sub_cancel_left,
      List.getElem?_eq_getElem used, Option.getD_some]
    rw [← index]

/-- The tree of a window of words passes, also where a full tree of that height would have more indices than
there are words. -/
theorem auditRoot_filled (positive : 0 < length) (inside : offset + length ≤ r.span (height + 1))
    (word : r.level height < 64) (small : offset + length < 2 ^ 64) :
    (filled r f height offset (offset + length - 1)).auditRoot r (r.level height) offset length =
      .ok () := by
  have fits : r.Fits height offset (offset + length - 1) := .of_lt (by omega) (by omega)
  have count : offset + length - 1 + 1 - offset = length := by omega
  simp only [auditRoot, bind_eq_ok_iff, ensure_eq_ok_iff, Word.add_eq_ok_iff, Word.sub_eq_ok_iff]
  refine ⟨length, ?_, (), rfl, offset, ?_, (), rfl, offset + length - 1, ?_, _, ⟨?_, rfl⟩, _, ⟨?_, rfl⟩, rfl⟩
  · rw [audit_filled fits (.inl rfl) (.inl rfl), count]
  · rw [firstIndex_filled fits word (by omega), Nat.mod_eq_of_lt (by omega)]
  · rw [lastIndex_filled fits word (by omega), Nat.mod_eq_of_lt (by omega)]
  · rw [Word.limit_eq]; omega
  · omega

theorem filled_of_auditRoot (word : r.level height + r.bits ≤ 63)
    (passed : root.auditRoot r (r.level height) offset length = .ok ()) :
    r.Admits height offset length ∧
      ∃ f, root = filled r f height offset (offset + length - 1) := by
  simp only [auditRoot, bind_eq_ok_iff, ensure_eq_ok_iff] at passed
  obtain ⟨n, audited, _, rfl, offset, start, _, rfl, -⟩ := passed
  obtain ⟨shaped, occupied⟩ := audit_shaped audited
  obtain ⟨first, run⟩ := audit_consecutive audited
  obtain ⟨f, entries⟩ := exists_elements run.positive (run.indices 0)
  have inside := run.inside
  have positive := run.positive
  rw [Nat.zero_add] at entries
  have tree := eq_filled shaped occupied 0 positive (by rw [Nat.zero_mul]; exact entries)
  have room := Radix.span_succ_lt_word word
  rw [tree, firstIndex_filled (.of_lt (by omega) (by omega)) (by omega) (by omega),
    Nat.mod_eq_of_lt (by omega)] at start
  cases start
  exact ⟨⟨positive, inside, word⟩, f, tree⟩

end Node

namespace Trie

/-- The trie that stores `f p` at each physical index `p` of its window. -/
def filled (f : Nat → α) (height offset length : Nat) : Trie r α :=
  ⟨some (.filled r f height offset (offset + length - 1)), offset, length, r.level height⟩

@[simp] theorem offset_filled : (filled f height offset length : Trie r α).offset = offset := rfl

@[simp] theorem length_filled : (filled f height offset length : Trie r α).length = length := rfl

@[simp] theorem level_filled : (filled f height offset length : Trie r α).level = r.level height := rfl

theorem empty_accepted : (empty : Trie r α).Accepted := rfl

theorem admits_unit (r : Radix) : r.Admits 0 0 1 := by
  have bits := r.bits_le
  have room := r.span_pos 1
  exact ⟨Nat.one_pos, room, by rw [Radix.level_zero]; omega⟩

theorem unit_filled {x : α} : (unit x : Trie r α) = filled (fun _ => x) 0 0 1 := by
  simp [unit, filled, Node.unit, Node.filled_zero]

theorem filled_accepted (admits : r.Admits height offset length) :
    (filled f height offset length : Trie r α).Accepted := by
  have stop := admits.stop_le
  unfold Accepted audit filled
  dsimp only
  simp only [bind_eq_ok_iff, ensure_eq_ok_iff, Word.add_eq_ok_iff]
  refine ⟨(), Nat.ne_of_gt admits.positive, (), Radix.level_mod_bits, _, ⟨?_, rfl⟩, _,
    Radix.capacity_level admits.word, (), admits.inside,
    Node.auditRoot_filled admits.positive admits.inside admits.level_lt (by omega)⟩
  rw [Word.limit_eq]
  omega

theorem unit_accepted {x : α} : (unit x : Trie r α).Accepted := by
  rw [unit_filled]
  exact filled_accepted (admits_unit r)

/-- An accepted trie is empty, or it is the trie of its window. -/
theorem Accepted.cases (accepted : t.Accepted) : t = empty ∨
    ∃ f height offset length, r.Admits height offset length ∧ t = filled f height offset length := by
  obtain ⟨root, offset, length, level⟩ := t
  cases root with
  | none =>
    simp only [Accepted, audit, bind_eq_ok_iff, ensure_eq_ok_iff] at accepted
    obtain ⟨_, rfl, _, rfl, rfl⟩ := accepted
    exact .inl rfl
  | some root =>
    simp only [Accepted, audit, bind_eq_ok_iff, ensure_eq_ok_iff, Word.add_eq_ok_iff] at accepted
    obtain ⟨_, used, _, aligned, _, ⟨_, rfl⟩, capacity, room, _, inside, passed⟩ := accepted
    obtain ⟨height, rfl⟩ := Radix.eq_level_of_mod_bits aligned
    obtain ⟨admits, f, rfl⟩ := Node.filled_of_auditRoot (Radix.capacity_word room (by omega)) passed
    exact .inr ⟨f, height, offset, length, admits, rfl⟩

theorem Accepted.eq_empty (accepted : t.Accepted) (vacant : t.length = 0) : t = empty := by
  rcases accepted.cases with rfl | ⟨f, height, offset, length, admits, rfl⟩
  · rfl
  · exact absurd vacant (Nat.ne_of_gt admits.positive)

/-! What an accepted trie stores. -/

def toList (t : Trie r α) : List α :=
  match t.root with
  | none => []
  | some root => root.toList

theorem get?_of_le (short : t.length ≤ i) : t.get? i = .ok none := if_pos short

theorem get?_filled (admits : r.Admits height offset length) (inside : i < length) :
    (filled f height offset length : Trie r α).get? i = .ok (some (f (offset + i))) := by
  have stop := admits.stop_le
  have index : Word.add offset i = .ok (offset + i) := Word.add_of_lt rfl (by omega)
  rw [get?, if_neg (by exact Nat.not_le.mpr inside)]
  simp only [filled, bind, Except.bind, index, lookup]
  exact Node.lookup_filled admits.fits (by omega) (by omega) admits.level_lt

theorem toList_filled (admits : r.Admits height offset length) :
    (filled f height offset length : Trie r α).toList = (List.range' offset length).map f := by
  have count : offset + length - 1 + 1 - offset = length := by have := admits.positive; omega
  exact (Node.toList_filled admits.fits).trans (by rw [count])

theorem length_toList (accepted : t.Accepted) : t.toList.length = t.length := by
  rcases accepted.cases with rfl | ⟨f, height, offset, length, admits, rfl⟩
  · rfl
  · simp [toList_filled admits]

theorem get?_toList (accepted : t.Accepted) (i : Nat) : t.get? i = .ok t.toList[i]? := by
  by_cases inside : i < t.length
  · rcases accepted.cases with rfl | ⟨f, height, offset, length, admits, rfl⟩
    · exact absurd inside (Nat.not_lt_zero i)
    · have inside : i < length := inside
      rw [get?_filled admits inside, toList_filled admits]
      simp [inside]
  · rw [get?_of_le (Nat.not_lt.mp inside), List.getElem?_eq_none]
    rw [length_toList accepted]
    exact Nat.not_lt.mp inside

end Trie

end DigitTrie
