import DigitTrie.Proofs.Runs

/-! How far a trie has spread. Dropping elements never lowers a tree, so its length says nothing about its
level; what does is the stretch of physical indices that have been in use since the numbering began. Every
index of the stretch was paid for by an inserted element, and a root above the leaves has seen the stretch
leave its first and its last child. -/
namespace DigitTrie

variable {r : Radix} {α : Type} {f : Nat → α} {x : α} {t u : Trie r α} {growth : Option Growth}
  {xs : List α} {height offset length inserted more low high : Nat}

namespace Trie

/-- The window of the trie lies in the stretch from `low` to `high`, and the stretch and the levels of the
trie are paid for by `inserted` elements. -/
structure Spread (t : Trie r α) (inserted low high : Nat) : Prop where
  low_le : low ≤ t.offset
  le_high : t.offset + t.length ≤ high
  paid : high ≤ low + inserted
  wide : ∀ height, t.level = r.level (height + 1) →
    low < r.lastSlot (height + 1) ∧ r.span (height + 1) < high
  tall : ∀ height, t.level = r.level (height + 1 + 1) → r.span (height + 1) + 2 ≤ inserted

namespace Spread

theorem flat (level : t.level = 0) (offset : t.offset = 0) (paid : t.length ≤ inserted) :
    t.Spread inserted 0 t.length := by
  have above (height : Nat) (same : t.level = r.level (height + 1)) : False :=
    Radix.level_succ_ne_zero (same.symm.trans level)
  exact ⟨Nat.zero_le _, by omega, by omega, fun height same => (above height same).elim,
    fun height same => (above (height + 1) same).elim⟩

theorem mono (spread : t.Spread inserted low high) (le : inserted ≤ more) : t.Spread more low high := by
  have paid := spread.paid
  refine ⟨spread.low_le, spread.le_high, by omega, spread.wide, fun height same => ?_⟩
  have tall := spread.tall height same
  omega

theorem narrow (spread : t.Spread inserted low high) (level : u.level = t.level)
    (left : t.offset ≤ u.offset) (right : u.offset + u.length ≤ t.offset + t.length) :
    u.Spread inserted low high :=
  ⟨Nat.le_trans spread.low_le left, Nat.le_trans right spread.le_high, spread.paid,
    fun height same => spread.wide height (level.symm.trans same),
    fun height same => spread.tall height (level.symm.trans same)⟩

/-- A tree that is full at the back, above the leaves, has cost more than its last child holds. -/
theorem full_back (spread : t.Spread inserted low high) (level : t.level = r.level (height + 1))
    (full : t.offset + t.length = r.span (height + 1 + 1)) : r.span (height + 1) + 1 ≤ inserted := by
  have slots := r.lastSlot_add_span (height + 1)
  have wide := spread.wide height level
  have paid := spread.paid
  have stop := spread.le_high
  omega

/-- A tree that is full at the front, above the leaves, has cost more than its first child holds. -/
theorem full_front (spread : t.Spread inserted low high) (level : t.level = r.level (height + 1))
    (full : t.offset = 0) : r.span (height + 1) + 1 ≤ inserted := by
  have wide := spread.wide height level
  have paid := spread.paid
  have start := spread.low_le
  omega

theorem pushBack (spread : t.Spread inserted low high)
    (window : u.window = ⟨t.level, t.offset, t.length + 1⟩) :
    u.Spread (inserted + 1) low (max high (t.offset + t.length + 1)) := by
  have level : u.level = t.level := congrArg Window.level window
  have offset : u.offset = t.offset := congrArg Window.offset window
  have length : u.length = t.length + 1 := congrArg Window.length window
  have low_le := spread.low_le
  have le_high := spread.le_high
  have paid := spread.paid
  refine ⟨by omega, by omega, by omega, fun height same => ?_, fun height same => ?_⟩
  · have wide := spread.wide height (level.symm.trans same)
    omega
  · have tall := spread.tall height (level.symm.trans same)
    omega

theorem pushFront (spread : t.Spread inserted low high) (room : 0 < t.offset)
    (window : u.window = ⟨t.level, t.offset - 1, t.length + 1⟩) :
    u.Spread (inserted + 1) (min low (t.offset - 1)) high := by
  have level : u.level = t.level := congrArg Window.level window
  have offset : u.offset = t.offset - 1 := congrArg Window.offset window
  have length : u.length = t.length + 1 := congrArg Window.length window
  have low_le := spread.low_le
  have le_high := spread.le_high
  have paid := spread.paid
  refine ⟨by omega, by omega, by omega, fun height same => ?_, fun height same => ?_⟩
  · have wide := spread.wide height (level.symm.trans same)
    omega
  · have tall := spread.tall height (level.symm.trans same)
    omega

/-- What a new root costs, if the tree below it already stands above the leaves. -/
theorem tall_of_full (grown : u.level = r.level (height + 1))
    (full : ∀ below, height = below + 1 → r.span (below + 1) + 1 ≤ inserted) (above : Nat)
    (level : u.level = r.level (above + 1 + 1)) : r.span (above + 1) + 2 ≤ inserted + 1 := by
  have same := Radix.level_injective (grown.symm.trans level)
  have cost := full above (by omega)
  omega

theorem growBack (spread : t.Spread inserted low high) (positive : 0 < t.length)
    (level : t.level = r.level height) (full : t.offset + t.length = r.span (height + 1))
    (window : u.window = ⟨r.level (height + 1), t.offset, t.length + 1⟩) :
    u.Spread (inserted + 1) low (max high (r.span (height + 1) + 1)) := by
  have grown : u.level = r.level (height + 1) := congrArg Window.level window
  have offset : u.offset = t.offset := congrArg Window.offset window
  have length : u.length = t.length + 1 := congrArg Window.length window
  have low_le := spread.low_le
  have le_high := spread.le_high
  have paid := spread.paid
  have slots := r.span_le_lastSlot (height + 1)
  refine ⟨by omega, by omega, by omega, fun above same => ?_, tall_of_full grown ?_⟩
  · cases Radix.level_injective (grown.symm.trans same)
    omega
  · rintro below rfl
    exact spread.full_back level full

/-- One more element at the front, below a new root: the stretch moves with the window. -/
theorem growFront (spread : t.Spread inserted low high) (positive : 0 < t.length)
    (level : t.level = r.level height) (full : t.offset = 0)
    (window : u.window = ⟨r.level (height + 1), r.lastSlot (height + 1) - 1, t.length + 1⟩) :
    u.Spread (inserted + 1) (r.lastSlot (height + 1) - 1) (r.lastSlot (height + 1) + high) := by
  have grown : u.level = r.level (height + 1) := congrArg Window.level window
  have offset : u.offset = r.lastSlot (height + 1) - 1 := congrArg Window.offset window
  have length : u.length = t.length + 1 := congrArg Window.length window
  have low_le := spread.low_le
  have le_high := spread.le_high
  have paid := spread.paid
  have slots := r.span_le_lastSlot (height + 1)
  have first := r.lastSlot_pos (height + 1)
  refine ⟨by omega, by omega, by omega, fun above same => ?_, tall_of_full grown ?_⟩
  · cases Radix.level_injective (grown.symm.trans same)
    omega
  · rintro below rfl
    exact spread.full_front level full

/-- A packed sequence, no higher than it has to be. -/
theorem packed (admits : r.Admits height 0 length) (least : height = 0 ∨ r.span height < length)
    (paid : length ≤ inserted) : (filled f height 0 length : Trie r α).Spread inserted 0 length := by
  refine ⟨Nat.zero_le _, by simp, by omega, fun above same => ?_, fun above same => ?_⟩
  · cases Radix.level_injective same
    exact ⟨r.lastSlot_pos _, by omega⟩
  · cases Radix.level_injective same
    have wider := r.two_mul_span_le (above + 1)
    have room := r.span_pos (above + 1)
    omega

end Spread

/-! One operation. -/

/-- The trie has lost elements at its ends, if it has changed at all. -/
def Narrower (u t : Trie r α) : Prop :=
  u = empty ∨ u.level = t.level ∧ t.offset ≤ u.offset ∧ u.offset + u.length ≤ t.offset + t.length

namespace Narrower

theorem refl : t.Narrower t := .inr ⟨rfl, Nat.le_refl _, Nat.le_refl _⟩

theorem of_window (left : t.offset ≤ offset) (right : offset + length ≤ t.offset + t.length)
    (window : u.window = ⟨t.level, offset, length⟩) : u.Narrower t := by
  have level : u.level = t.level := congrArg Window.level window
  have offset : u.offset = offset := congrArg Window.offset window
  have length : u.length = length := congrArg Window.length window
  exact .inr ⟨level, by omega, by omega⟩

theorem update (accepted : t.Accepted) {i : Nat} (done : t.update i x = .ok u) : u.Narrower t := by
  have done := update_eq_ok_iff.mp done
  rcases set_cases done with ⟨inside, -⟩ | ⟨-, -, rfl⟩
  · obtain ⟨_, again, -, window⟩ := set_step (x := x) accepted inside
    cases done.symm.trans again
    exact of_window (Nat.le_refl _) (Nat.le_refl _) window
  · exact refl

theorem drop (accepted : t.Accepted) {n : Nat} (done : t.drop n = .ok u) : u.Narrower t := by
  obtain ⟨_, again, -, keeps, removes, window⟩ := drop_step accepted n
  cases done.symm.trans again
  by_cases short : t.length ≤ n
  · exact .inl (removes short)
  · rcases Nat.eq_zero_or_pos n with zero | positive
    · rw [keeps zero]
      exact refl
    · exact of_window (by omega) (by omega) (window positive (by omega))

theorem take (accepted : t.Accepted) {n : Nat} (done : t.take n = .ok u) : u.Narrower t := by
  obtain ⟨_, again, -, keeps, removes, window⟩ := take_step accepted n
  cases done.symm.trans again
  by_cases short : t.length ≤ n
  · rw [keeps short]
    exact refl
  · rcases Nat.eq_zero_or_pos n with zero | positive
    · exact .inl (removes zero)
    · exact of_window (Nat.le_refl _) (by omega) (window positive (by omega))

theorem slice (accepted : t.Accepted) {start stop : Nat} (done : t.slice start stop = .ok u) :
    u.Narrower t := by
  obtain ⟨_, again, -, -, removes, window⟩ := slice_step accepted start stop
  cases done.symm.trans again
  by_cases short : min stop t.length ≤ start
  · exact .inl (removes short)
  · exact of_window (by omega) (by omega) (window (by omega))

end Narrower

theorem Spread.of_narrower (spread : t.Spread inserted low high) (narrower : u.Narrower t) :
    ∃ low high, u.Spread inserted low high := by
  rcases narrower with rfl | ⟨level, left, right⟩
  · exact ⟨0, 0, .flat rfl rfl (Nat.zero_le _)⟩
  · exact ⟨low, high, spread.narrow level left right⟩

theorem spread_pushBack (accepted : t.Accepted) (spread : t.Spread inserted low high)
    (pushed : t.pushBack x = .ok (u, growth)) (u_accepted : u.Accepted) :
    ∃ low high, u.Spread (inserted + 1) low high := by
  rcases accepted.cases with rfl | ⟨f, height, offset, length, admits, rfl⟩
  · cases pushed
    exact ⟨0, 1, .flat rfl rfl (Nat.le_add_left 1 inserted)⟩
  · have inside := admits.inside
    obtain ⟨room, full⟩ := pushBack_window admits pushed u_accepted
    by_cases last : offset + length < r.span (height + 1)
    · exact ⟨_, _, spread.pushBack (room last)⟩
    · have last : offset + length = r.span (height + 1) := by omega
      exact ⟨_, _, spread.growBack admits.positive rfl last (full last)⟩

theorem spread_pushFront (accepted : t.Accepted) (spread : t.Spread inserted low high)
    (pushed : t.pushFront x = .ok (u, growth)) (u_accepted : u.Accepted) :
    ∃ low high, u.Spread (inserted + 1) low high := by
  rcases accepted.cases with rfl | ⟨f, height, offset, length, admits, rfl⟩
  · cases pushed
    exact ⟨0, 1, .flat rfl rfl (Nat.le_add_left 1 inserted)⟩
  · obtain ⟨room, full⟩ := pushFront_window admits pushed u_accepted
    rcases Nat.eq_zero_or_pos offset with first | behind
    · exact ⟨_, _, spread.growFront admits.positive rfl first (full first)⟩
    · exact ⟨_, _, spread.pushFront behind (room behind)⟩

theorem spread_pushAll {growths : List Growth} (accepted : t.Accepted) (allowed : t.PushesAllowed xs)
    (spread : t.Spread inserted low high) (pushed : t.pushAll Trie.pushBack xs = .ok (u, growths)) :
    ∃ low high, u.Spread (inserted + xs.length) low high := by
  induction xs generalizing t inserted low high growths with
  | nil =>
    cases pushed
    exact ⟨low, high, spread⟩
  | cons x xs ih =>
    obtain ⟨s, growth, rest, first, others, -⟩ := pushAll_cons_eq_ok_iff.mp pushed
    have s_accepted := accepted_of_pushBack accepted allowed.1 first
    obtain ⟨low, high, spread⟩ := spread_pushBack accepted spread first s_accepted
    rw [List.length_cons, Nat.add_comm xs.length, ← Nat.add_assoc]
    exact ih s_accepted (allowed.2 _ _ first) spread others

theorem spread_ofList (collectable : Collectable r xs) (packed : ofList xs = .ok u)
    (paid : xs.length ≤ inserted) : ∃ low high, u.Spread inserted low high := by
  rcases ofList_cases packed with ⟨-, rfl⟩ | ⟨used, f, height, rfl, -, inside, least⟩
  · exact ⟨0, 0, .flat rfl rfl (Nat.zero_le _)⟩
  · obtain ⟨_, ⟨n, rfl⟩, word, room⟩ := collectable
    rw [Nat.mul_comm r.bits] at word room
    have room : xs.length ≤ r.span (n + 1) := by rwa [← Radix.size_mul_two_pow_level]
    exact ⟨_, _, .packed (admits_ofList used word room inside least) least paid⟩

end Trie

def Op.insertions : Op α → Nat
  | .unit _ | .pushBack _ | .pushFront _ => 1
  | .ofList xs | .extend xs => xs.length
  | .clear | .set _ _ | .drop _ | .take _ | .slice _ _ => 0

/-- An operation spreads a trie no further than it pays for. -/
theorem Op.perform_spread {op : Op α} {outcome : Outcome} (accepted : t.Accepted) (allowed : op.Allowed t)
    (spread : t.Spread inserted low high) (performed : op.perform t = .ok (outcome, u))
    (u_accepted : u.Accepted) : ∃ low high, u.Spread (inserted + op.insertions) low high := by
  rcases perform_cases performed with ⟨growths, applied⟩ | ⟨-, rfl⟩
  · cases op with
    | clear =>
      cases applied
      exact ⟨0, 0, .flat rfl rfl (Nat.zero_le _)⟩
    | unit x =>
      cases applied
      exact ⟨0, 1, .flat rfl rfl (Nat.le_add_left 1 inserted)⟩
    | ofList xs =>
      obtain ⟨_, packed, same⟩ := bind_eq_ok_iff.mp applied
      cases same
      exact Trie.spread_ofList allowed packed (Nat.le_add_left _ _)
    | extend xs =>
      by_cases vacant : t.isEmpty = true
      · rw [Op.Allowed, if_pos vacant] at allowed
        rw [apply, Trie.extend, if_pos vacant] at applied
        obtain ⟨_, packed, same⟩ := bind_eq_ok_iff.mp applied
        cases same
        exact Trie.spread_ofList allowed packed (Nat.le_add_left _ _)
      · rw [Op.Allowed, if_neg vacant] at allowed
        rw [apply, Trie.extend, if_neg vacant] at applied
        exact Trie.spread_pushAll accepted allowed spread applied
    | pushBack x =>
      obtain ⟨_, pushed, same⟩ := bind_eq_ok_iff.mp applied
      cases same
      exact Trie.spread_pushBack accepted spread pushed u_accepted
    | pushFront x =>
      obtain ⟨_, pushed, same⟩ := bind_eq_ok_iff.mp applied
      cases same
      exact Trie.spread_pushFront accepted spread pushed u_accepted
    | set i x =>
      obtain ⟨_, done, same⟩ := bind_eq_ok_iff.mp applied
      cases same
      exact spread.of_narrower (.update accepted done)
    | drop n =>
      obtain ⟨_, done, same⟩ := bind_eq_ok_iff.mp applied
      cases same
      exact spread.of_narrower (.drop accepted done)
    | take n =>
      obtain ⟨_, done, same⟩ := bind_eq_ok_iff.mp applied
      cases same
      exact spread.of_narrower (.take accepted done)
    | slice start stop =>
      obtain ⟨_, done, same⟩ := bind_eq_ok_iff.mp applied
      cases same
      exact spread.of_narrower (.slice accepted done)
  · exact ⟨low, high, spread.mono (Nat.le_add_right _ _)⟩

end DigitTrie
