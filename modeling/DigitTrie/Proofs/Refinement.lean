import DigitTrie.Proofs.Reading
import DigitTrie.Proofs.Runs

/-! Tries are lists. A run from the empty trie goes through as long as no push meets a blocked side and
nothing too long is collected at once, and after each step all that can be read off the trie is what a
plain list would give. -/
namespace DigitTrie.Trie

variable {r : Radix} {α : Type} {t : Trie r α} {op : Op α} {ops : List (Op α)} {xs : List α}

/-- All readings of the trie are those of the list, its shape passes an audit, and it refuses exactly the
indices that the list does not have. -/
structure Represents (t : Trie r α) (xs : List α) : Prop where
  audit : t.audit = .ok ()
  length : t.length = xs.length
  isEmpty : t.isEmpty = xs.isEmpty
  get? : ∀ i, t.get? i = .ok xs[i]?
  first? : t.first? = .ok xs.head?
  last? : t.last? = .ok xs.getLast?
  elements : t.elements = .ok xs
  refuses : ∀ i x, t.set i x = .ok (.refused i xs.length, t) ↔ xs.length ≤ i
  fails : ∀ i x, t.update i x = .error (.indexOutOfRange i xs.length) ↔ xs.length ≤ i

theorem last?_toList (accepted : t.Accepted) : t.last? = .ok t.toList.getLast? := by
  have length := length_toList accepted
  rw [last?]
  split
  · rename_i vacant
    have nil : t.toList = [] := List.length_eq_zero_iff.mp (length.trans vacant)
    rw [nil]
    rfl
  · rw [get?_toList accepted, List.getLast?_eq_getElem?, length]

theorem set_refused_iff (accepted : t.Accepted) (i : Nat) (x : α) :
    t.set i x = .ok (.refused i t.length, t) ↔ t.length ≤ i := by
  constructor
  · intro refused
    by_contra inside
    obtain ⟨u, done, -⟩ := set_toList accepted (Nat.lt_of_not_le inside) x
    cases done.symm.trans refused
  · exact set_refused

theorem update_fails_iff (accepted : t.Accepted) (i : Nat) (x : α) :
    t.update i x = .error (.indexOutOfRange i t.length) ↔ t.length ≤ i := by
  constructor
  · intro fails
    by_contra inside
    obtain ⟨u, done, -⟩ := set_toList accepted (Nat.lt_of_not_le inside) x
    cases (update_eq_ok_iff.mpr done).symm.trans fails
  · exact update_refused

theorem Accepted.represents (accepted : t.Accepted) : t.Represents t.toList := by
  have length := length_toList accepted
  refine ⟨accepted, length.symm, ?_, get?_toList accepted, ?_, last?_toList accepted,
    elements_toList accepted, ?_, ?_⟩
  · rw [isEmpty, ← length]
    cases t.toList <;> rfl
  · rw [first?, get?_toList accepted, List.head?_eq_getElem?]
  · rw [length]
    exact set_refused_iff accepted
  · rw [length]
    exact update_fails_iff accepted

theorem history_represents (accepted : t.Accepted) (allowed : t.Allows ops) :
    ∃ steps, t.history ops = .ok steps ∧
      List.Forall₂ (fun step seen => step.1 = seen.1 ∧ step.2.Represents seen.2) steps
        (listHistory t.toList ops) := by
  induction ops generalizing t with
  | nil => exact ⟨[], rfl, .nil⟩
  | cons op ops ih =>
    obtain ⟨outcome, u, performed, u_accepted, elements⟩ := Op.perform_toList accepted allowed.1
    obtain ⟨rest, run, agree⟩ := ih u_accepted (allowed.2 outcome u performed)
    refine ⟨_, history_cons_eq_ok_iff.mpr ⟨outcome, u, rest, performed, run, rfl⟩, ?_⟩
    rw [listHistory, ← elements]
    exact .cons ⟨rfl, u_accepted.represents⟩ agree

end DigitTrie.Trie
