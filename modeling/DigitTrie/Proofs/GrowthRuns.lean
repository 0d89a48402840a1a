import DigitTrie.Proofs.Meaning

/-! Many pushes in a row at one end. The room that is free at the other end is never touched, neither by a push
nor by a level that is added: the indices in use and that room together grow by one with each push, and a level
is added whenever they come to the number of indices below the root. So where a run of pushes ends, and what it
reports, can be said without carrying it out. -/
namespace DigitTrie

variable {r : Radix} {α : Type} {level levels taken length n : Nat}

namespace Radix

/-- `levels` is the least number of levels that have to be added to a root at `level` for `n` indices. -/
structure Needs (r : Radix) (level levels n : Nat) : Prop where
  room : n ≤ r.size * 2 ^ (level + levels * r.bits)
  least : ∀ fewer, fewer < levels → r.size * 2 ^ (level + fewer * r.bits) < n

theorem add_bits (r : Radix) (level more : Nat) :
    level + r.bits + more * r.bits = level + (more + 1) * r.bits := by
  rw [Nat.succ_mul]
  omega

namespace Needs

theorem eq_zero (needs : r.Needs level levels n) (room : n ≤ r.size * 2 ^ level) : levels = 0 := by
  by_contra more
  have full := needs.least 0 (Nat.pos_of_ne_zero more)
  rw [Nat.zero_mul, Nat.add_zero] at full
  omega

/-- Where there is no room yet, one level is added, and the other ones are added on top of that. -/
theorem next (needs : r.Needs level levels n) (full : r.size * 2 ^ level < n) :
    ∃ fewer, levels = fewer + 1 ∧ r.Needs (level + r.bits) fewer n := by
  cases levels with
  | zero =>
    have room := needs.room
    rw [Nat.zero_mul, Nat.add_zero] at room
    omega
  | succ fewer =>
    refine ⟨fewer, rfl, ?_, fun other less => ?_⟩
    · rw [add_bits]
      exact needs.room
    · rw [add_bits]
      exact needs.least (other + 1) (Nat.succ_lt_succ less)

end Needs

/-- What is reported when `levels` levels are added to a root at `level`, each where the window has come to the
end of the tree: `taken` is the room at the other end. -/
def reports (r : Radix) (level taken levels : Nat) : List Growth :=
  (List.range levels).map fun j =>
    ⟨r.size * 2 ^ (level + j * r.bits) - taken, level + (j + 1) * r.bits⟩

theorem reports_succ : r.reports level taken (levels + 1) =
    ⟨r.size * 2 ^ level - taken, level + r.bits⟩ :: r.reports (level + r.bits) taken levels := by
  simp [reports, List.range_succ_eq_map, add_bits]

end Radix

namespace Trie

variable {t : Trie r α} {push : Trie r α → α → Except Fault (Trie r α × Option Growth)}
  {At : Nat → Nat → Trie r α → Prop} {xs : List α}

/-- Pushes at one end. `At level length t` says that `t` has this level and this length, and the room `taken` at
its other end. A push keeps that room, and where the window has come to the end of the tree it adds a level and
reports it. -/
structure Climbs (push : Trie r α → α → Except Fault (Trie r α × Option Growth))
    (At : Nat → Nat → Trie r α → Prop) (taken : Nat) : Prop where
  inside : ∀ {level length t}, At level length t → taken + length ≤ r.size * 2 ^ level
  room : ∀ {level length t}, At level length t → taken + length < r.size * 2 ^ level →
    ∀ x, ∃ u, push t x = .ok (u, none) ∧ At level (length + 1) u
  full : ∀ {level length t}, At level length t → taken + length = r.size * 2 ^ level →
    level + 2 * r.bits ≤ 63 →
    ∀ x, ∃ u, push t x = .ok (u, some ⟨length, level + r.bits⟩) ∧ At (level + r.bits) (length + 1) u

/-- By induction on what is pushed: where the tree is full, the first of the levels that are needed is added, and
the other ones are what the longer window still needs. -/
theorem Climbs.run (climbs : Climbs push At taken) (start : At level length t)
    (needs : r.Needs level levels (taken + length + xs.length))
    (word : level + levels * r.bits + r.bits ≤ 63) :
    ∃ u, t.pushAll push xs = .ok (u, r.reports level taken levels) ∧
      At (level + levels * r.bits) (length + xs.length) u := by
  induction xs generalizing t level length levels with
  | nil =>
    cases needs.eq_zero (climbs.inside start)
    refine ⟨t, rfl, ?_⟩
    simpa using start
  | cons x xs ih =>
    have count : taken + (length + 1) + xs.length = taken + length + (x :: xs).length := by
      rw [List.length_cons]
      omega
    have total : length + 1 + xs.length = length + (x :: xs).length := by
      rw [List.length_cons]
      omega
    by_cases full : taken + length = r.size * 2 ^ level
    · have more : r.size * 2 ^ level < taken + length + (x :: xs).length := by
        rw [List.length_cons]
        omega
      obtain ⟨fewer, rfl, higher⟩ := needs.next more
      rw [← r.add_bits] at word
      obtain ⟨s, pushed, s_at⟩ := climbs.full start full (by omega) x
      obtain ⟨u, others, u_at⟩ := ih s_at (count ▸ higher) word
      rw [r.add_bits, total] at u_at
      rw [Radix.reports_succ, ← full, Nat.add_sub_cancel_left]
      exact ⟨u, pushAll_cons_eq_ok_iff.mpr ⟨s, _, _, pushed, others, rfl⟩, u_at⟩
    · have room := Nat.lt_of_le_of_ne (climbs.inside start) full
      obtain ⟨s, pushed, s_at⟩ := climbs.room start room x
      obtain ⟨u, others, u_at⟩ := ih s_at (count ▸ needs) word
      exact ⟨u, pushAll_cons_eq_ok_iff.mpr ⟨s, none, _, pushed, others, rfl⟩, total ▸ u_at⟩

theorem climbs_back (offset : Nat) :
    Climbs pushBack (fun level length (t : Trie r α) => t.Accepted ∧ t.window = ⟨level, offset, length⟩)
      offset where
  inside := by
    rintro level length t ⟨accepted, window⟩
    cases window
    exact accepted.inside
  room := by
    rintro level length t ⟨accepted, window⟩ room x
    cases window
    obtain ⟨u, pushed, u_accepted, -, u_window⟩ := pushBack_room accepted room x
    exact ⟨u, pushed, u_accepted, u_window⟩
  full := by
    rintro level length t ⟨accepted, window⟩ full word x
    cases window
    obtain ⟨u, pushed, u_accepted, -, u_window⟩ := pushBack_grows accepted full word x
    exact ⟨u, pushed, u_accepted, u_window⟩

/-- At the front the window moves, and the room behind it stays. -/
theorem climbs_front (behind : Nat) :
    Climbs pushFront (fun level length (t : Trie r α) => t.Accepted ∧ 0 < t.length ∧
      behind + length ≤ r.size * 2 ^ level ∧
      t.window = ⟨level, r.size * 2 ^ level - behind - length, length⟩) behind where
  inside := by
    rintro level length t ⟨-, -, inside, -⟩
    exact inside
  room := by
    rintro _ _ t ⟨accepted, used, -, window⟩ room x
    obtain ⟨rfl, offset, rfl⟩ := Window.mk.inj window
    obtain ⟨u, pushed, u_accepted, -, u_window⟩ := pushFront_room accepted (by omega) x
    have count : u.length = t.length + 1 := congrArg Window.length u_window
    refine ⟨u, pushed, u_accepted, count ▸ Nat.succ_pos _, room, u_window.trans ?_⟩
    rw [offset, Nat.sub_sub _ t.length]
  full := by
    rintro _ _ t ⟨accepted, used, -, window⟩ full word x
    obtain ⟨rfl, offset, rfl⟩ := Window.mk.inj window
    obtain ⟨u, pushed, u_accepted, -, u_window⟩ := pushFront_grows accepted used (by omega) word x
    have count : u.length = t.length + 1 := congrArg Window.length u_window
    -- The new root has as much room below its last slot as the old one had in all, and that is now in use.
    have slots := r.others_add_last (2 ^ (t.level + r.bits))
    have last := r.two_pow_add_bits t.level
    have others : 0 < (r.size - 1) * 2 ^ (t.level + r.bits) :=
      Nat.mul_pos (Nat.sub_pos_of_lt r.two_le_size) (Nat.two_pow_pos _)
    refine ⟨u, pushed, u_accepted, count ▸ Nat.succ_pos _, by omega, u_window.trans ?_⟩
    congr 1
    omega

theorem pushAll_of_empty {x : α} (first : push empty x = .ok (unit x, none)) (xs : List α) :
    (empty : Trie r α).pushAll push (x :: xs) = (unit x).pushAll push xs := by
  simp only [pushAll, List.foldlM_cons, first]
  rfl

/-- Pushes at one end of a trie, in closed form: the level afterwards is the least one that has room for all
elements and for the free room at the other end, which is still there, and each level that had to be added
for it was reported when the one below it was full. Pushes to an empty trie are pushes to a unit trie. -/
theorem growth_of_pushes :
    (∀ t : Trie r α, t.Accepted → 0 < t.length →
      (∀ (xs : List α) levels, r.Needs t.level levels (t.offset + t.length + xs.length) →
        t.level + levels * r.bits + r.bits ≤ 63 →
        ∃ u, t.pushAll pushBack xs = .ok (u, r.reports t.level t.offset levels) ∧ u.Accepted ∧
          u.window = ⟨t.level + levels * r.bits, t.offset, t.length + xs.length⟩) ∧
      (∀ behind, behind = r.size * 2 ^ t.level - t.offset - t.length →
        ∀ (xs : List α) levels, r.Needs t.level levels (behind + t.length + xs.length) →
        t.level + levels * r.bits + r.bits ≤ 63 →
        ∃ u, t.pushAll pushFront xs = .ok (u, r.reports t.level behind levels) ∧ u.Accepted ∧
          u.window = ⟨t.level + levels * r.bits,
            r.size * 2 ^ (t.level + levels * r.bits) - behind - t.length - xs.length,
            t.length + xs.length⟩)) ∧
    (∀ (x : α) xs, (empty : Trie r α).pushAll pushBack (x :: xs) = (unit x).pushAll pushBack xs ∧
      (empty : Trie r α).pushAll pushFront (x :: xs) = (unit x).pushAll pushFront xs ∧
      (unit x : Trie r α).window = ⟨0, 0, 1⟩) := by
  refine ⟨fun t accepted used => ⟨fun xs levels needs word => ?_, ?_⟩,
    fun x xs => ⟨pushAll_of_empty rfl xs, pushAll_of_empty rfl xs, rfl⟩⟩
  · exact (climbs_back t.offset).run ⟨accepted, rfl⟩ needs word
  · rintro behind rfl xs levels needs word
    have inside := accepted.inside
    have start : t.window = ⟨t.level, r.size * 2 ^ t.level - (r.size * 2 ^ t.level - t.offset - t.length) -
        t.length, t.length⟩ := by
      unfold window
      congr 1
      omega
    obtain ⟨u, pushed, u_accepted, -, -, u_window⟩ :=
      (climbs_front _).run ⟨accepted, used, by omega, start⟩ needs word
    rw [Nat.sub_add_eq] at u_window
    exact ⟨u, pushed, u_accepted, u_window⟩

/-- Room for one index at either end of four: six pushes add two levels, at the back and in front. -/
theorem growth_of_pushes_midst :
    ∃ u v : Trie Radix.binary Nat,
      (filled Nat.succ 1 1 2).pushAll pushBack [10, 11, 12, 13, 14, 15] = .ok (u, [⟨3, 2⟩, ⟨7, 3⟩]) ∧
      u.window = ⟨3, 1, 8⟩ ∧
      (filled Nat.succ 1 1 2).pushAll pushFront [10, 11, 12, 13, 14, 15] = .ok (v, [⟨3, 2⟩, ⟨7, 3⟩]) ∧
      v.window = ⟨3, 7, 8⟩ := by
  have accepted : (filled Nat.succ 1 1 2 : Trie Radix.binary Nat).Accepted :=
    filled_accepted ⟨by decide, by decide, by decide⟩
  have needs : Radix.binary.Needs 1 2 9 := ⟨by decide, by decide⟩
  obtain ⟨back, front⟩ := growth_of_pushes.1 _ accepted (by decide)
  obtain ⟨u, pushed, -, window⟩ := back [10, 11, 12, 13, 14, 15] 2 needs (by decide)
  obtain ⟨v, other_pushed, -, other_window⟩ := front 1 rfl [10, 11, 12, 13, 14, 15] 2 needs (by decide)
  exact ⟨u, v, pushed, window, other_pushed, other_window⟩

end Trie

end DigitTrie
