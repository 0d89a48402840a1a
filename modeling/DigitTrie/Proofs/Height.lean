import Mathlib.Tactic.IntervalCases
import DigitTrie.Proofs.Refinement
import DigitTrie.Proofs.Spread

/-! The height of a trie is paid for. In a run whose steps all return accepted tries no push has met a
blocked side, so the stretch of used indices is paid for by the elements that were inserted; and a side is
blocked only on a level that fewer than `2 ^ 54` insertions do not reach. -/
namespace DigitTrie

variable {r : Radix} {α : Type} {x : α} {t u : Trie r α} {growth : Option Growth} {growths : List Growth}
  {xs : List α} {op : Op α} {ops : List (Op α)} {outcome : Outcome}
  {steps : List (Outcome × Trie r α)} {inserted low high : Nat}

namespace Trie

/-! What returned an accepted trie was allowed. -/

theorem not_blocked_empty : ¬ (empty : Trie r α).BackBlocked ∧ ¬ (empty : Trie r α).FrontBlocked := by
  have small := r.bits_le
  have low : ¬ 63 < 0 + 2 * r.bits := by omega
  exact ⟨fun blocked => low blocked.2, fun blocked => low blocked.2⟩

theorem not_backBlocked_of_accepted (accepted : t.Accepted) (pushed : t.pushBack x = .ok (u, growth))
    (u_accepted : u.Accepted) : ¬ t.BackBlocked := by
  rcases accepted.cases with rfl | ⟨f, height, offset, length, admits, rfl⟩
  · exact not_blocked_empty.1
  · rintro ⟨full, high⟩
    rw [level_filled, Radix.size_mul_two_pow_level] at full
    have room := (pushBack_exists_iff admits).mp ⟨u, growth, pushed, u_accepted⟩
    simp only [offset_filled, length_filled, level_filled] at full high
    omega

theorem not_frontBlocked_of_accepted (accepted : t.Accepted) (pushed : t.pushFront x = .ok (u, growth))
    (u_accepted : u.Accepted) : ¬ t.FrontBlocked := by
  rcases accepted.cases with rfl | ⟨f, height, offset, length, admits, rfl⟩
  · exact not_blocked_empty.2
  · rintro ⟨full, high⟩
    have room := (pushFront_exists_iff admits).mp ⟨u, growth, pushed, u_accepted⟩
    simp only [offset_filled, level_filled] at full high
    omega

theorem pushBack_mono (used : t.isEmpty = false) (pushed : t.pushBack x = .ok (u, growth)) :
    t.level ≤ u.level ∧ u.isEmpty = false := by
  obtain ⟨roomy, room, level, u_used⟩ := pushBack_roomy used pushed
  obtain ⟨full, -, grown⟩ := bind_eq_ok_iff.mp room
  refine ⟨?_, u_used⟩
  rw [level]
  cases full with
  | false =>
    cases grown
    exact Nat.le_refl _
  | true =>
    obtain ⟨root, offset, length, level⟩ := t
    cases root with
    | none =>
      cases grown
      exact Nat.le_refl _
    | some root =>
      cases grown
      exact Nat.le_add_right _ _

theorem pushAll_mono (used : t.isEmpty = false) (pushed : t.pushAll pushBack xs = .ok (u, growths)) :
    t.level ≤ u.level := by
  induction xs generalizing t growths with
  | nil =>
    cases pushed
    exact Nat.le_refl _
  | cons x xs ih =>
    obtain ⟨s, growth, rest, first, others, -⟩ := pushAll_cons_eq_ok_iff.mp pushed
    obtain ⟨higher, s_used⟩ := pushBack_mono used first
    exact Nat.le_trans higher (ih s_used others)

/-- A blocked push leaves a level from which no later push comes back, so pushes that end in an accepted
trie have met no blocked back. -/
theorem pushesAllowed_of_accepted (accepted : t.Accepted) (used : t.isEmpty = false)
    (pushed : t.pushAll pushBack xs = .ok (u, growths)) (u_accepted : u.Accepted) :
    t.PushesAllowed xs := by
  induction xs generalizing t growths with
  | nil => exact trivial
  | cons x xs ih =>
    obtain ⟨s, growth, rest, first, others, -⟩ := pushAll_cons_eq_ok_iff.mp pushed
    obtain ⟨higher, s_used⟩ := pushBack_mono used first
    have room : ¬ t.BackBlocked := by
      rintro ⟨full, high⟩
      have highest := pushAll_mono s_used others
      rcases accepted.cases with rfl | ⟨f, height, offset, length, admits, rfl⟩
      · exact not_blocked_empty.1 ⟨full, high⟩
      · rw [level_filled, Radix.size_mul_two_pow_level] at full
        have level := pushBack_level admits full first
        have bits := r.bits_pos
        rw [Radix.level_succ] at level
        rw [level_filled] at high
        rcases u_accepted.level_le with low | rfl
        · omega
        · have zero : (empty : Trie r α).level = 0 := rfl
          omega
    have s_accepted := accepted_of_pushBack accepted room first
    refine ⟨room, fun _ _ once_more => ?_⟩
    cases first.symm.trans once_more
    exact ih s_accepted s_used others

theorem collectable_of_accepted (packed : ofList xs = .ok u) (accepted : u.Accepted) :
    Collectable r xs := by
  rcases ofList_cases packed with ⟨rfl, -⟩ | ⟨used, f, height, rfl, -, inside, -⟩
  · exact ⟨0, Nat.dvd_zero _, by have := r.bits_le; omega, Nat.zero_le _⟩
  · rcases accepted.level_le with word | vacant
    · exact ⟨r.level height, Nat.dvd_mul_left _ _, word, by rwa [Radix.size_mul_two_pow_level]⟩
    · have length : xs.length = 0 := congrArg Trie.length vacant
      exact absurd (List.length_eq_zero_iff.mp length) used

end Trie

theorem Op.allowed_of_accepted (accepted : t.Accepted) (performed : op.perform t = .ok (outcome, u))
    (u_accepted : u.Accepted) : op.Allowed t := by
  rcases perform_cases performed with ⟨growths, applied⟩ | ⟨⟨i, x, rfl⟩, -⟩
  · cases op with
    | clear | unit _ | set _ _ | drop _ | take _ | slice _ _ => exact trivial
    | ofList xs =>
      obtain ⟨_, packed, same⟩ := bind_eq_ok_iff.mp applied
      cases same
      exact Trie.collectable_of_accepted packed u_accepted
    | extend xs =>
      rw [apply, Trie.extend] at applied
      by_cases vacant : t.isEmpty = true
      · rw [if_pos vacant] at applied
        rw [Op.Allowed, if_pos vacant]
        obtain ⟨_, packed, same⟩ := bind_eq_ok_iff.mp applied
        cases same
        exact Trie.collectable_of_accepted packed u_accepted
      · rw [if_neg vacant] at applied
        rw [Op.Allowed, if_neg vacant]
        exact Trie.pushesAllowed_of_accepted accepted (Bool.eq_false_of_not_eq_true vacant) applied u_accepted
    | pushBack x =>
      obtain ⟨_, pushed, same⟩ := bind_eq_ok_iff.mp applied
      cases same
      exact Trie.not_backBlocked_of_accepted accepted pushed u_accepted
    | pushFront x =>
      obtain ⟨_, pushed, same⟩ := bind_eq_ok_iff.mp applied
      cases same
      exact Trie.not_frontBlocked_of_accepted accepted pushed u_accepted
  · exact trivial

/-! What fewer than `2 ^ 54` insertions have paid for is allowed. -/

namespace Trie

/-- A root from which no further growth is possible stands above `2 ^ 54` indices for each child. -/
theorem blocked_span {height : Nat} (high : 63 < r.level height + 2 * r.bits) :
    2 ^ 54 ≤ r.span height ∧ 0 < height := by
  have level : r.level height = height * r.bits := rfl
  have positive := r.bits_pos
  have small := r.bits_le
  have enough : 54 ≤ r.level height := by
    generalize r.bits = bits at *
    interval_cases bits <;> omega
  refine ⟨Nat.pow_le_pow_right (by decide) enough, Nat.pos_of_ne_zero ?_⟩
  rintro rfl
  rw [Radix.level_zero] at enough
  omega

theorem not_backBlocked_of_spread (accepted : t.Accepted) (spread : t.Spread inserted low high)
    (few : inserted ≤ 2 ^ 54) : ¬ t.BackBlocked := by
  rcases accepted.cases with rfl | ⟨f, height, offset, length, admits, rfl⟩
  · exact not_blocked_empty.1
  · rintro ⟨full, blocked⟩
    obtain ⟨wide, above⟩ := blocked_span blocked
    obtain ⟨height, rfl⟩ := Nat.exists_eq_add_one_of_ne_zero (Nat.ne_of_gt above)
    rw [level_filled, Radix.size_mul_two_pow_level] at full
    have cost := spread.full_back rfl full
    omega

theorem not_frontBlocked_of_spread (accepted : t.Accepted) (spread : t.Spread inserted low high)
    (few : inserted ≤ 2 ^ 54) : ¬ t.FrontBlocked := by
  rcases accepted.cases with rfl | ⟨f, height, offset, length, admits, rfl⟩
  · exact not_blocked_empty.2
  · rintro ⟨full, blocked⟩
    obtain ⟨wide, above⟩ := blocked_span blocked
    obtain ⟨height, rfl⟩ := Nat.exists_eq_add_one_of_ne_zero (Nat.ne_of_gt above)
    have cost := spread.full_front rfl full
    omega

theorem pushesAllowed_of_spread (accepted : t.Accepted) (spread : t.Spread inserted low high)
    (few : inserted + xs.length ≤ 2 ^ 54) : t.PushesAllowed xs := by
  induction xs generalizing t inserted low high with
  | nil => exact trivial
  | cons x xs ih =>
    rw [List.length_cons] at few
    have room := not_backBlocked_of_spread accepted spread (by omega)
    refine ⟨room, fun s growth pushed => ?_⟩
    have s_accepted := accepted_of_pushBack accepted room pushed
    obtain ⟨low, high, spread⟩ := spread_pushBack accepted spread pushed s_accepted
    exact ih s_accepted spread (by omega)

/-- The widest root whose capacity is a word has room for `2 ^ 54` elements, whatever the radix. -/
theorem collectable_of_length (few : xs.length ≤ 2 ^ 54) : Collectable r xs := by
  have positive := r.bits_pos
  have small := r.bits_le
  obtain ⟨height, wide, word⟩ : ∃ height, 54 ≤ height * r.bits + r.bits ∧ height * r.bits + r.bits ≤ 63 := by
    refine ⟨63 / r.bits - 1, ?_⟩
    generalize r.bits = bits at *
    interval_cases bits <;> decide
  refine ⟨height * r.bits, Nat.dvd_mul_left _ _, word, Nat.le_trans few ?_⟩
  rw [Radix.size_eq, ← Nat.pow_add]
  exact Nat.pow_le_pow_right (by decide) (by omega)

end Trie

theorem Op.allowed_of_spread (accepted : t.Accepted) (spread : t.Spread inserted low high)
    (few : inserted + op.insertions ≤ 2 ^ 54) : op.Allowed t := by
  cases op with
  | clear | unit _ | set _ _ | drop _ | take _ | slice _ _ => exact trivial
  | ofList xs => exact Trie.collectable_of_length (Nat.le_of_add_left_le few)
  | extend xs =>
    rw [Op.Allowed]
    split
    · exact Trie.collectable_of_length (Nat.le_of_add_left_le few)
    · exact Trie.pushesAllowed_of_spread accepted spread few
  | pushBack x => exact Trie.not_backBlocked_of_spread accepted spread (Nat.le_of_add_right_le few)
  | pushFront x => exact Trie.not_frontBlocked_of_spread accepted spread (Nat.le_of_add_right_le few)

/-! Runs. -/

namespace Trie

/-- How many elements a run is given to store, those included that it drops again. -/
def insertions (ops : List (Op α)) : Nat := (ops.map Op.insertions).sum

theorem insertions_cons : insertions (op :: ops) = op.insertions + insertions ops := by
  rw [insertions, List.map_cons, List.sum_cons, insertions]

/-- As long as all steps return accepted tries, the stretch of each is paid for by what came before it. -/
theorem history_spread {k : Nat} (accepted : t.Accepted) (spread : t.Spread inserted low high)
    (run : t.history ops = .ok steps) (reached : steps[k]? = some (outcome, u))
    (each : ∀ step ∈ steps.take (k + 1), step.2.Accepted) :
    ∃ low high, u.Spread (inserted + insertions (ops.take (k + 1))) low high := by
  induction ops generalizing t inserted low high steps k with
  | nil =>
    cases run
    cases reached
  | cons op ops ih =>
    obtain ⟨first, s, rest, performed, others, rfl⟩ := history_cons_eq_ok_iff.mp run
    have s_accepted : s.Accepted := each _ (by rw [List.take_succ_cons]; exact List.mem_cons_self)
    have allowed := Op.allowed_of_accepted accepted performed s_accepted
    obtain ⟨low, high, spread⟩ := Op.perform_spread accepted allowed spread performed s_accepted
    rw [List.take_succ_cons, insertions_cons, ← Nat.add_assoc]
    cases k with
    | zero =>
      cases reached
      exact ⟨low, high, spread⟩
    | succ k =>
      exact ih s_accepted spread others reached fun step member =>
        each step (by rw [List.take_succ_cons]; exact List.mem_cons_of_mem _ member)

theorem allows_of_spread (accepted : t.Accepted) (spread : t.Spread inserted low high)
    (few : inserted + insertions ops ≤ 2 ^ 54) : t.Allows ops := by
  induction ops generalizing t inserted low high with
  | nil => exact trivial
  | cons op ops ih =>
    rw [insertions_cons, ← Nat.add_assoc] at few
    have allowed := Op.allowed_of_spread accepted spread (Nat.le_of_add_right_le few)
    refine ⟨allowed, fun outcome u performed => ?_⟩
    obtain ⟨_, _, again, u_accepted, -⟩ := Op.perform_toList accepted allowed
    cases performed.symm.trans again
    obtain ⟨low, high, spread⟩ := Op.perform_spread accepted allowed spread performed u_accepted
    exact ih u_accepted spread few

theorem spread_empty : (empty : Trie r α).Spread 0 0 0 := .flat rfl rfl (Nat.le_refl 0)

theorem Spread.level_cost (spread : t.Spread inserted low high) (accepted : t.Accepted)
    (tall : 2 * r.bits ≤ t.level) : r.size * 2 ^ (t.level - 2 * r.bits) + 2 ≤ inserted := by
  rcases accepted.cases with rfl | ⟨f, height, offset, length, admits, rfl⟩
  · have positive := r.bits_pos
    have zero : (empty : Trie r α).level = 0 := rfl
    omega
  · have two : 2 ≤ height := Nat.le_of_mul_le_mul_right tall r.bits_pos
    obtain ⟨below, rfl⟩ := Nat.exists_eq_add_of_le' two
    have lower : r.level (below + 2) - 2 * r.bits = r.level below := by
      rw [Radix.level_succ, Radix.level_succ]
      omega
    rw [level_filled, lower, Radix.size_mul_two_pow_level]
    exact spread.tall below rfl

/-- The level of a trie is paid for by the elements that the run was given: from two levels above the
leaves on, by more than a whole subtree two levels further down. So a run of few insertions meets no
blocked side, whatever else it does. -/
theorem level_paid_for (ops : List (Op α)) :
    (∀ steps, (empty : Trie r α).history ops = .ok steps →
      ∀ k outcome u, steps[k]? = some (outcome, u) →
        (∀ step ∈ steps.take (k + 1), step.2.Accepted) → 2 * r.bits ≤ u.level →
        r.size * 2 ^ (u.level - 2 * r.bits) + 2 ≤ insertions (ops.take (k + 1))) ∧
    (insertions ops ≤ 2 ^ 54 →
      ∃ steps, (empty : Trie r α).history ops = .ok steps ∧ ∀ step ∈ steps, step.2.Accepted) := by
  constructor
  · intro steps run k outcome u reached each tall
    obtain ⟨low, high, spread⟩ := history_spread empty_accepted spread_empty run reached each
    rw [Nat.zero_add] at spread
    have member : (outcome, u) ∈ steps.take (k + 1) := by
      obtain ⟨inside, same⟩ := List.getElem?_eq_some_iff.mp reached
      exact List.mem_take_iff_getElem.mpr ⟨k, by omega, same⟩
    exact spread.level_cost (each _ member) tall
  · intro few
    have allowed : (empty : Trie r α).Allows ops :=
      allows_of_spread empty_accepted spread_empty (by rwa [Nat.zero_add])
    obtain ⟨steps, run, agree⟩ := history_represents empty_accepted allowed
    refine ⟨steps, run, fun step member => ?_⟩
    obtain ⟨i, inside, rfl⟩ := List.mem_iff_getElem.mp member
    exact (agree.get inside (agree.length_eq ▸ inside)).2.audit

/-- Four pushes to both ends add two levels, the least that pay for them, and dropping most of what was pushed
takes neither away. -/
theorem level_paid_for_both_ends :
    ∃ (steps : List (Outcome × Trie Radix.binary Nat)) (u : Trie Radix.binary Nat),
      (empty : Trie Radix.binary Nat).history
        [.pushBack 5, .pushBack 6, .pushFront 4, .pushBack 7, .drop 3] = .ok steps ∧
      steps[4]? = some (.done, u) ∧ u.length = 1 ∧ u.level = 2 ∧
      Radix.binary.size * 2 ^ (u.level - 2 * Radix.binary.bits) + 2 ≤
        insertions [.pushBack 5, .pushBack 6, .pushFront 4, .pushBack 7, .drop 3] ∧
      insertions [.pushBack 5, .pushBack 6, .pushFront 4, .pushBack 7, .drop 3] = 4 := by
  have all := level_paid_for (r := Radix.binary) [.pushBack 5, .pushBack 6, .pushFront 4, .pushBack 7, .drop 3]
  have pushed : (empty : Trie Radix.binary Nat).history
      [.pushBack 5, .pushBack 6, .pushFront 4, .pushBack 7, .drop 3] =
      .ok [(.done, unit 5), (.done, ⟨some (.leaf 0 [5, 6]), 0, 2, 0⟩),
        (.done, ⟨some (.interior 0 [.leaf 1 [4], .leaf 0 [5, 6]]), 1, 3, 1⟩),
        (.done, ⟨some (.interior 0 [.interior 0 [.leaf 1 [4], .leaf 0 [5, 6]],
          .interior 0 [.leaf 0 [7]]]), 1, 4, 2⟩),
        (.done, ⟨some (.interior 1 [.interior 0 [.leaf 0 [7]]]), 4, 1, 2⟩)] := by cbv
  obtain ⟨steps, run, accepted⟩ := all.2 (by decide)
  have costs := all.1 steps run 4
  cases pushed.symm.trans run
  exact ⟨_, _, pushed, rfl, rfl, rfl,
    costs .done _ rfl (fun step member => accepted step (List.mem_of_mem_take member)) (by decide), rfl⟩

end Trie

end DigitTrie
