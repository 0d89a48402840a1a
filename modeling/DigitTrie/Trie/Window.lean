import DigitTrie.Trie.Basic

/-!
Changes that add nothing: putting another element in the place of one, and narrowing the window from
either end. The path to a cut is trimmed, so what was cut off is no longer reachable; and a trie from
which all was removed is the empty trie, in every field.
-/
namespace DigitTrie

inductive Outcome where
  | done
  /-- The trie has no element with this index. -/
  | refused (index length : Nat)
deriving DecidableEq, Repr

namespace Trie

variable {r : Radix} {α : Type}

/-- Puts `x` in the place of the element with index `i`; gives the outcome and the trie after it. -/
def set (t : Trie r α) (i : Nat) (x : α) : Except Fault (Outcome × Trie r α) :=
  if t.length ≤ i then .ok (.refused i t.length, t)
  else do
    let edited ← t.edit (← Word.add t.offset i) (.replace x)
    return (.done, edited)

/-- The trie with `x` in the place of the element with index `i`, which it has to have. -/
def update (t : Trie r α) (i : Nat) (x : α) : Except Fault (Trie r α) := do
  match ← t.set i x with
  | (.done, u) => return u
  | (.refused index length, _) => throw (.indexOutOfRange index length)

def drop (t : Trie r α) (n : Nat) : Except Fault (Trie r α) :=
  if n = 0 then .ok t
  else if t.length ≤ n then .ok empty
  else do
    let offset ← Word.add t.offset n
    let edited ← t.edit offset .keepFrom
    return { edited with offset, length := t.length - n }

def take (t : Trie r α) (n : Nat) : Except Fault (Trie r α) :=
  if t.length ≤ n then .ok t
  else if n = 0 then .ok empty
  else do
    let stop ← Word.add t.offset n
    let edited ← t.edit (stop - 1) .keepThrough
    return { edited with length := n }

/-- The elements from index `start` on and before index `stop`; both bounds are cut to the length. -/
def slice (t : Trie r α) (start stop : Nat) : Except Fault (Trie r α) := do
  (← t.take stop).drop start

variable {t u : Trie r α} {i : Nat} {x : α} {outcome : Outcome}

theorem set_refused (short : t.length ≤ i) : t.set i x = .ok (.refused i t.length, t) := if_pos short

theorem update_refused (short : t.length ≤ i) :
    t.update i x = .error (.indexOutOfRange i t.length) := by
  rw [update, set_refused short]
  rfl

theorem update_eq_ok_iff : t.update i x = .ok u ↔ t.set i x = .ok (.done, u) := by
  rw [update, bind_eq_ok_iff]
  constructor
  · rintro ⟨⟨outcome, v⟩, result, same⟩
    cases outcome with
    | done =>
      cases same
      exact result
    | refused => cases same
  · intro done
    exact ⟨_, done, rfl⟩

/-- An index of the trie is never refused, and any other one always is. -/
theorem set_cases (result : t.set i x = .ok (outcome, u)) :
    i < t.length ∧ outcome = .done ∧ t.update i x = .ok u ∨
      t.length ≤ i ∧ outcome = .refused i t.length ∧ u = t := by
  by_cases short : t.length ≤ i
  · cases result.symm.trans (set_refused short)
    exact .inr ⟨short, rfl, rfl⟩
  · have inside := result
    rw [set, if_neg short] at inside
    obtain ⟨_, -, edited⟩ := bind_eq_ok_iff.mp inside
    obtain ⟨_, -, same⟩ := bind_eq_ok_iff.mp edited
    cases same
    exact .inl ⟨Nat.lt_of_not_le short, rfl, update_eq_ok_iff.mpr result⟩

end Trie

end DigitTrie
