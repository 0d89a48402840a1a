import DigitTrie.Proofs.Places

/-! Slices. A cut leaves a stretch of the elements and skips what is before it below the root, unless nothing is
left: then there is no place to keep, and the trie is the empty one. So a sequence of cuts comes to a stretch
and a place, and two sequences that agree in both lead to the same tree, whichever path they trimmed first. -/
namespace DigitTrie

namespace Word

variable {α : Type} {xs : List α} {n : Nat}

/-- The word that is nearest to `n`. -/
def clamp (n : Nat) : Nat := min n (limit - 1)

theorem clamp_eq (word : n < limit) : clamp n = n := Nat.min_eq_left (Nat.le_sub_one_of_lt word)

/-- A bound that is no word lies behind every sequence that can be counted in words. -/
theorem le_clamp (short : xs.length < limit) (large : limit ≤ n) : xs.length ≤ clamp n :=
  Nat.le_min.mpr ⟨by omega, by omega⟩

theorem take_clamp (short : xs.length < limit) (n : Nat) : xs.take (clamp n) = xs.take n := by
  rcases Nat.lt_or_ge n limit with word | large
  · rw [clamp_eq word]
  · rw [List.take_of_length_le (le_clamp short large), List.take_of_length_le (by omega)]

theorem drop_clamp (short : xs.length < limit) (n : Nat) : xs.drop (clamp n) = xs.drop n := by
  rcases Nat.lt_or_ge n limit with word | large
  · rw [clamp_eq word]
  · rw [List.drop_of_length_le (le_clamp short large), List.drop_of_length_le (by omega)]

/-- A cut that leaves something is made at a word. -/
theorem clamp_of_drop (short : xs.length < limit) (left : xs.drop n ≠ []) : clamp n = n := by
  have start : n < xs.length := Nat.lt_of_not_le (mt List.drop_eq_nil_iff.mpr left)
  exact clamp_eq (Nat.lt_trans start short)

end Word

namespace Trie

variable {r : Radix} {α : Type} {xs : List α} {t : Trie r α} {p q : Place} {ops : List (Op α)}

theorem Accepted.countable (accepted : t.Accepted) : t.toList.length < Word.limit := by
  rw [length_toList accepted, Word.limit_eq]
  rcases accepted.cases with rfl | ⟨f, height, offset, length, admits, rfl⟩
  · exact Nat.two_pow_pos 64
  · have stop := admits.stop_le
    rw [length_filled]
    omega

namespace Leads

theorem of_eq (leads : t.Leads ops p xs) (same : xs ≠ [] → p = q) : t.Leads ops q xs := by
  obtain ⟨u, growths, run, accepted, elements, there⟩ := leads
  exact ⟨u, growths, run, accepted, elements, fun left => (there left).trans (same left)⟩

theorem drop_clamp (leads : t.Leads ops p xs) (short : xs.length < Word.limit) (n : Nat) :
    t.Leads (ops ++ [.drop (Word.clamp n)]) (p.skip n) (xs.drop n) := by
  have cut := leads.drop (Word.clamp n)
  rw [Word.drop_clamp short] at cut
  exact cut.of_eq fun left => by rw [Word.clamp_of_drop short left]

theorem slice_clamp (leads : t.Leads ops p xs) (short : xs.length < Word.limit) (start stop : Nat) :
    t.Leads (ops ++ [.slice (Word.clamp start) (Word.clamp stop)]) (p.skip start)
      ((xs.take stop).drop start) := by
  have cut := leads.slice (Word.clamp start) (Word.clamp stop)
  have fewer : (xs.take stop).length < Word.limit :=
    Nat.lt_of_le_of_lt (List.length_take_le' stop xs) short
  rw [Word.take_clamp short, Word.drop_clamp fewer] at cut
  exact cut.of_eq fun left => by rw [Word.clamp_of_drop fewer left]

end Leads

/-- Cuts at opposite ends, in either order, wherever they meet. -/
theorem take_drop_joins (accepted : t.Accepted) (n m : Nat) :
    t.Joins [.take m, .drop n] [.drop n, .take (m - n)] := by
  have other := (accepted.leads.drop n).take (m - n)
  rw [← List.drop_take] at other
  exact ((accepted.leads.take m).drop n).joins other

theorem slice_joins (accepted : t.Accepted) (start stop : Nat) :
    t.Joins [.slice start stop] [.drop start, .take (stop - start)] := by
  have other := (accepted.leads.drop start).take (stop - start)
  rw [← List.drop_take] at other
  exact (accepted.leads.slice start stop).joins other

theorem slice_slice_joins (accepted : t.Accepted) (a b c d : Nat) :
    t.Joins [.slice a b, .slice c d] [.slice (Word.clamp (a + c)) (Word.clamp (min (a + d) b))] := by
  have two := (accepted.leads.slice a b).slice c d
  rw [List.take_drop, List.drop_drop, List.take_take, Place.skip_skip] at two
  exact two.joins (accepted.leads.slice_clamp accepted.countable (a + c) (min (a + d) b))

theorem drop_drop_joins (accepted : t.Accepted) (n m : Nat) :
    t.Joins [.drop n, .drop m] [.drop (Word.clamp (n + m))] := by
  have two := (accepted.leads.drop n).drop m
  rw [List.drop_drop, Place.skip_skip] at two
  exact two.joins (accepted.leads.drop_clamp accepted.countable (n + m))

theorem take_take_joins (accepted : t.Accepted) (n m : Nat) :
    t.Joins [.take n, .take m] [.take (min n m)] := by
  have two := (accepted.leads.take n).take m
  rw [List.take_take, Nat.min_comm] at two
  exact two.joins (accepted.leads.take (min n m))

/-- A slice is the stretch of the elements between its bounds, which are cut to the length: it stays below its
root, as many indices further on as were cut off, or it is the empty trie. It is the same tree whichever end is
cut first, and a slice of a slice is one slice of the whole, tree and all. -/
theorem slices_compose (accepted : t.Accepted) :
    (∀ start stop, ∃ u, t.slice start stop = .ok u ∧ u.Accepted ∧
      u.toList = (t.toList.take (min stop t.length)).drop start ∧
      (min stop t.length ≤ start → u = empty) ∧
      (start < min stop t.length →
        u.window = ⟨t.level, t.offset + start, min stop t.length - start⟩)) ∧
    (∀ start stop, t.Joins [.slice start stop] [.drop start, .take (stop - start)]) ∧
    (∀ a b c d, t.Joins [.slice a b, .slice c d]
      [.slice (Word.clamp (a + c)) (Word.clamp (min (a + d) b))]) ∧
    (∀ n m, t.Joins [.drop n, .drop m] [.drop (Word.clamp (n + m))]) ∧
    (∀ n m, t.Joins [.take n, .take m] [.take (min n m)]) := by
  refine ⟨fun start stop => ?_, slice_joins accepted, slice_slice_joins accepted, drop_drop_joins accepted,
    take_take_joins accepted⟩
  obtain ⟨u, sliced, u_accepted, -, vacant, window⟩ := slice_step accepted start stop
  obtain ⟨_, again, -, elements⟩ := slice_toList accepted start stop
  cases sliced.symm.trans again
  rw [List.take_eq_take_min, length_toList accepted] at elements
  exact ⟨u, sliced, u_accepted, elements, vacant, window⟩

/-- Two cuts through different leaves, with bounds up to the last word. -/
theorem slices_compose_last_word :
    (filled Nat.succ 2 1 6 : Trie Radix.binary Nat).Accepted ∧
      (filled Nat.succ 2 1 6 : Trie Radix.binary Nat).Joins
        [.slice 1 5, .slice 2 (Word.limit - 1)] [.slice 3 5] ∧
      (filled Nat.succ 2 1 6 : Trie Radix.binary Nat).Joins
        [.drop 3, .drop (Word.limit - 1)] [.drop (Word.limit - 1)] := by
  have accepted : (filled Nat.succ 2 1 6 : Trie Radix.binary Nat).Accepted :=
    filled_accepted ⟨by decide, by decide, by decide⟩
  obtain ⟨-, -, slices, drops, -⟩ := slices_compose accepted
  exact ⟨accepted, slices 1 5 2 (Word.limit - 1), drops 3 (Word.limit - 1)⟩

end Trie

end DigitTrie
