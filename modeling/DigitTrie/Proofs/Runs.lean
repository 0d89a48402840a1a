import DigitTrie.Trie.Op
import DigitTrie.Proofs.Meaning

/-! Runs of operations. A run goes on after an operation that was refused because it named an index too
large; any other fault ends it. Beside each run stands what a plain list makes of the same operations. -/
namespace DigitTrie

variable {r : Radix} {α : Type} {t u : Trie r α} {op : Op α} {ops : List (Op α)}
  {growths : List Growth} {outcome : Outcome} {xs : List α}

namespace Op

/-- Carries out an operation in place of the trie. Only putting an element in the place of another has an
outcome to tell. -/
def perform (op : Op α) (t : Trie r α) : Except Fault (Outcome × Trie r α) :=
  match op with
  | .set i x => t.set i x
  | op => do
    let (u, _) ← op.apply t
    return (.done, u)

def performOnList (op : Op α) (xs : List α) : Outcome × List α :=
  match op with
  | .set i x => if i < xs.length then (.done, xs.set i x) else (.refused i xs.length, xs)
  | op => (.done, op.applyToList xs)

/-- No push of the operation meets a blocked side, and what it collects fits below some root. -/
def Allowed (op : Op α) (t : Trie r α) : Prop :=
  match op with
  | .ofList xs => Trie.Collectable r xs
  | .extend xs => if t.isEmpty then Trie.Collectable r xs else t.PushesAllowed xs
  | .pushBack _ => ¬ t.BackBlocked
  | .pushFront _ => ¬ t.FrontBlocked
  | _ => True

theorem perform_done (applied : op.apply t = .ok (u, growths)) : op.perform t = .ok (.done, u) := by
  cases op with
  | set i x =>
    obtain ⟨_, done, same⟩ := bind_eq_ok_iff.mp applied
    cases same
    exact Trie.update_eq_ok_iff.mp done
  | clear | unit _ | ofList _ | extend _ | pushBack _ | pushFront _ | drop _ | take _ | slice _ _ =>
    exact bind_eq_ok_iff.mpr ⟨_, applied, rfl⟩

/-- An operation that went through was done, or an index was refused and nothing changed. -/
theorem perform_cases (performed : op.perform t = .ok (outcome, u)) :
    (∃ growths, op.apply t = .ok (u, growths)) ∨ (∃ i x, op = .set i x) ∧ u = t := by
  cases op with
  | set i x =>
    rcases Trie.set_cases performed with ⟨-, -, done⟩ | ⟨-, -, same⟩
    · exact .inl ⟨[], bind_eq_ok_iff.mpr ⟨_, done, rfl⟩⟩
    · exact .inr ⟨⟨i, x, rfl⟩, same⟩
  | clear | unit _ | ofList _ | extend _ | pushBack _ | pushFront _ | drop _ | take _ | slice _ _ =>
    obtain ⟨⟨_, growths⟩, applied, same⟩ := bind_eq_ok_iff.mp performed
    cases same
    exact .inl ⟨growths, applied⟩

theorem apply_toList (accepted : t.Accepted) (allowed : op.Allowed t)
    (inside : ∀ i x, op = .set i x → i < t.length) :
    ∃ u growths, op.apply t = .ok (u, growths) ∧ u.Accepted ∧ u.toList = op.applyToList t.toList := by
  cases op with
  | clear => exact ⟨.empty, [], rfl, Trie.empty_accepted, rfl⟩
  | unit x => exact ⟨.unit x, [], rfl, Trie.unit_accepted, Trie.toList_unit⟩
  | ofList xs =>
    obtain ⟨u, packed, means⟩ := Trie.ofList_toList allowed
    exact ⟨u, [], bind_eq_ok_iff.mpr ⟨_, packed, rfl⟩, means⟩
  | extend xs => exact Trie.extend_toList accepted allowed
  | pushBack x =>
    obtain ⟨u, growth, pushed, means⟩ := Trie.pushBack_toList accepted allowed x
    exact ⟨u, growth.toList, bind_eq_ok_iff.mpr ⟨_, pushed, rfl⟩, means⟩
  | pushFront x =>
    obtain ⟨u, growth, pushed, means⟩ := Trie.pushFront_toList accepted allowed x
    exact ⟨u, growth.toList, bind_eq_ok_iff.mpr ⟨_, pushed, rfl⟩, means⟩
  | set i x =>
    obtain ⟨u, done, means⟩ := Trie.set_toList accepted (inside i x rfl) x
    exact ⟨u, [], bind_eq_ok_iff.mpr ⟨_, Trie.update_eq_ok_iff.mpr done, rfl⟩, means⟩
  | drop n =>
    obtain ⟨u, dropped, means⟩ := Trie.drop_toList accepted n
    exact ⟨u, [], bind_eq_ok_iff.mpr ⟨_, dropped, rfl⟩, means⟩
  | take n =>
    obtain ⟨u, taken, means⟩ := Trie.take_toList accepted n
    exact ⟨u, [], bind_eq_ok_iff.mpr ⟨_, taken, rfl⟩, means⟩
  | slice start stop =>
    obtain ⟨u, sliced, means⟩ := Trie.slice_toList accepted start stop
    exact ⟨u, [], bind_eq_ok_iff.mpr ⟨_, sliced, rfl⟩, means⟩

theorem performOnList_done (inside : ∀ i x, op = .set i x → i < xs.length) :
    op.performOnList xs = (.done, op.applyToList xs) := by
  cases op with
  | set i x => exact if_pos (inside i x rfl)
  | clear | unit _ | ofList _ | extend _ | pushBack _ | pushFront _ | drop _ | take _ | slice _ _ => rfl

/-- An allowed operation comes out on an accepted trie as it does on the list of its elements. -/
theorem perform_toList (accepted : t.Accepted) (allowed : op.Allowed t) :
    ∃ outcome u, op.perform t = .ok (outcome, u) ∧ u.Accepted ∧
      (outcome, u.toList) = op.performOnList t.toList := by
  have length := Trie.length_toList accepted
  by_cases refused : ∃ i x, op = .set i x ∧ t.length ≤ i
  · obtain ⟨i, x, rfl, short⟩ := refused
    refine ⟨.refused i t.length, t, Trie.set_refused short, accepted, ?_⟩
    rw [performOnList, length, if_neg (Nat.not_lt.mpr short)]
  · have inside (i x) (same : op = .set i x) : i < t.length :=
      Nat.lt_of_not_le fun short => refused ⟨i, x, same, short⟩
    obtain ⟨u, growths, applied, u_accepted, elements⟩ := apply_toList accepted allowed inside
    refine ⟨.done, u, perform_done applied, u_accepted, ?_⟩
    rw [elements, performOnList_done (by rwa [length])]

end Op

namespace Trie

def history (t : Trie r α) : List (Op α) → Except Fault (List (Outcome × Trie r α))
  | [] => .ok []
  | op :: ops => do
    let (outcome, u) ← op.perform t
    return (outcome, u) :: (← u.history ops)

def listHistory (xs : List α) : List (Op α) → List (Outcome × List α)
  | [] => []
  | op :: ops => op.performOnList xs :: listHistory (op.performOnList xs).2 ops

def Allows (t : Trie r α) : List (Op α) → Prop
  | [] => True
  | op :: ops => op.Allowed t ∧ ∀ outcome u, op.perform t = .ok (outcome, u) → u.Allows ops

theorem history_cons_eq_ok_iff {steps : List (Outcome × Trie r α)} :
    t.history (op :: ops) = .ok steps ↔ ∃ outcome u rest,
      op.perform t = .ok (outcome, u) ∧ u.history ops = .ok rest ∧ steps = (outcome, u) :: rest := by
  rw [history, bind_eq_ok_iff]
  constructor
  · rintro ⟨⟨outcome, u⟩, performed, continued⟩
    obtain ⟨rest, run, same⟩ := bind_eq_ok_iff.mp continued
    cases same
    exact ⟨outcome, u, rest, performed, run, rfl⟩
  · rintro ⟨outcome, u, rest, performed, run, rfl⟩
    exact ⟨(outcome, u), performed, bind_eq_ok_iff.mpr ⟨rest, run, rfl⟩⟩

end Trie

end DigitTrie
