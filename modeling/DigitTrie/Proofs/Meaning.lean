import DigitTrie.Proofs.Packing
import DigitTrie.Proofs.Pushes

/-! What the operations mean for the elements. On an accepted trie each of them does to the listed elements
what it says, and a push does so as long as its side is not blocked: full, with no word for the capacity of
one more level. -/
namespace DigitTrie.Trie

variable {r : Radix} {α : Type} {f : Nat → α} {x : α} {t u : Trie r α} {growth : Option Growth}
  {growths : List Growth} {height offset length i n : Nat} {xs : List α}

/-- There is no room at the back, and none can be made. -/
def BackBlocked (t : Trie r α) : Prop :=
  t.offset + t.length = r.size * 2 ^ t.level ∧ 63 < t.level + 2 * r.bits

def FrontBlocked (t : Trie r α) : Prop := t.offset = 0 ∧ 63 < t.level + 2 * r.bits

theorem set_toList (accepted : t.Accepted) (inside : i < t.length) (x : α) :
    ∃ u, t.set i x = .ok (.done, u) ∧ u.Accepted ∧ u.toList = t.toList.set i x := by
  rcases accepted.cases with rfl | ⟨f, height, offset, length, admits, rfl⟩
  · exact absurd inside (Nat.not_lt_zero i)
  · refine ⟨_, set_filled admits inside, filled_accepted admits, ?_⟩
    rw [toList_filled admits, toList_filled admits, Node.overwrite_set]

theorem drop_toList (accepted : t.Accepted) (n : Nat) :
    ∃ u, t.drop n = .ok u ∧ u.Accepted ∧ u.toList = t.toList.drop n := by
  rcases drop_cases accepted n with ⟨rfl, done⟩ | ⟨all, done⟩ |
    ⟨f, height, offset, length, admits, cut, positive, short, rfl, done⟩
  · exact ⟨t, done, accepted, rfl⟩
  · refine ⟨empty, done, empty_accepted, ?_⟩
    rw [List.drop_of_length_le (by rwa [length_toList accepted]), toList_empty]
  · refine ⟨_, done, filled_accepted cut, ?_⟩
    rw [toList_filled cut, toList_filled admits, ← List.map_drop, List.drop_range', Nat.mul_one]

theorem take_toList (accepted : t.Accepted) (n : Nat) :
    ∃ u, t.take n = .ok u ∧ u.Accepted ∧ u.toList = t.toList.take n := by
  rcases take_cases accepted n with ⟨all, done⟩ | ⟨rfl, done⟩ |
    ⟨f, height, offset, length, admits, cut, positive, short, rfl, done⟩
  · refine ⟨t, done, accepted, ?_⟩
    rw [List.take_of_length_le (by rwa [length_toList accepted])]
  · exact ⟨empty, done, empty_accepted, rfl⟩
  · refine ⟨_, done, filled_accepted cut, ?_⟩
    rw [toList_filled cut, toList_filled admits, ← List.map_take,
      List.take_range'_of_length_ge (Nat.le_of_lt short)]

theorem slice_toList (accepted : t.Accepted) (start stop : Nat) :
    ∃ u, t.slice start stop = .ok u ∧ u.Accepted ∧ u.toList = (t.toList.take stop).drop start := by
  obtain ⟨front, taken, front_accepted, front_elements⟩ := take_toList accepted stop
  obtain ⟨u, dropped, u_accepted, elements⟩ := drop_toList front_accepted start
  exact ⟨u, bind_eq_ok_iff.mpr ⟨front, taken, dropped⟩, u_accepted, by rw [elements, front_elements]⟩

theorem pushBack_toList (accepted : t.Accepted) (room : ¬ t.BackBlocked) (x : α) :
    ∃ u growth, t.pushBack x = .ok (u, growth) ∧ u.Accepted ∧ u.toList = t.toList ++ [x] := by
  have inside := accepted.inside
  by_cases full : t.offset + t.length = r.size * 2 ^ t.level
  · have word : t.level + 2 * r.bits ≤ 63 := Nat.not_lt.mp fun high => room ⟨full, high⟩
    obtain ⟨u, pushed, u_accepted, elements, -⟩ := pushBack_grows accepted full word x
    exact ⟨u, _, pushed, u_accepted, elements⟩
  · obtain ⟨u, pushed, u_accepted, elements, -⟩ := pushBack_room accepted (by omega) x
    exact ⟨u, _, pushed, u_accepted, elements⟩

theorem accepted_of_pushBack (accepted : t.Accepted) (room : ¬ t.BackBlocked)
    (pushed : t.pushBack x = .ok (u, growth)) : u.Accepted := by
  obtain ⟨_, _, again, u_accepted, -⟩ := pushBack_toList accepted room x
  cases pushed.symm.trans again
  exact u_accepted

theorem pushFront_toList (accepted : t.Accepted) (room : ¬ t.FrontBlocked) (x : α) :
    ∃ u growth, t.pushFront x = .ok (u, growth) ∧ u.Accepted ∧ u.toList = x :: t.toList := by
  rcases Nat.eq_zero_or_pos t.length with vacant | used
  · cases accepted.eq_empty vacant
    exact ⟨unit x, none, rfl, unit_accepted, toList_unit⟩
  rcases Nat.eq_zero_or_pos t.offset with full | before
  · have word : t.level + 2 * r.bits ≤ 63 := Nat.not_lt.mp fun high => room ⟨full, high⟩
    obtain ⟨u, pushed, u_accepted, elements, -⟩ := pushFront_grows accepted used full word x
    exact ⟨u, _, pushed, u_accepted, elements⟩
  · obtain ⟨u, pushed, u_accepted, elements, -⟩ := pushFront_room accepted before x
    exact ⟨u, _, pushed, u_accepted, elements⟩

def PushesAllowed (t : Trie r α) : List α → Prop
  | [] => True
  | x :: xs => ¬ t.BackBlocked ∧ ∀ u growth, t.pushBack x = .ok (u, growth) → u.PushesAllowed xs

/-- The sequence fits below a root whose capacity is a word. -/
def Collectable (r : Radix) (xs : List α) : Prop :=
  ∃ level, r.bits ∣ level ∧ level + r.bits ≤ 63 ∧ xs.length ≤ r.size * 2 ^ level

theorem ofList_toList (collectable : Collectable r xs) :
    ∃ u : Trie r α, ofList xs = .ok u ∧ u.Accepted ∧ u.toList = xs := by
  obtain ⟨_, ⟨n, rfl⟩, word, room⟩ := collectable
  rw [Nat.mul_comm r.bits] at word room
  exact ofList_accepted word (by rwa [← Radix.size_mul_two_pow_level])

/-- Growth that was reported before the pushes stays in front of what they report. -/
theorem pushAll_growths {push : Trie r α → α → Except Fault (Trie r α × Option Growth)}
    (before : List Growth) :
    (xs.foldlM (fun (t, growths) x => do
      let (t, growth) ← push t x
      return (t, growths ++ growth.toList)) (t, before)) =
      (t.pushAll push xs).map fun (u, growths) => (u, before ++ growths) := by
  induction xs generalizing t before with
  | nil =>
    simp [pushAll, pure, Except.pure, Except.map]
  | cons x xs ih =>
    rw [pushAll, List.foldlM_cons, List.foldlM_cons]
    dsimp only
    cases push t x with
    | error fault => rfl
    | ok pushed =>
      obtain ⟨s, growth⟩ := pushed
      have rest := congrArg (Except.map fun (u, growths) => (u, before ++ growths))
        (ih (t := s) ([] ++ growth.toList))
      refine (ih _).trans (Eq.trans ?_ rest.symm)
      cases s.pushAll push xs <;> simp [Except.map]

theorem pushAll_cons {push : Trie r α → α → Except Fault (Trie r α × Option Growth)} :
    t.pushAll push (x :: xs) = (do
      let (s, growth) ← push t x
      let (u, growths) ← s.pushAll push xs
      return (u, growth.toList ++ growths)) := by
  rw [pushAll, List.foldlM_cons]
  dsimp only
  cases push t x with
  | error fault => rfl
  | ok pushed =>
    obtain ⟨s, growth⟩ := pushed
    refine (pushAll_growths ([] ++ growth.toList)).trans ?_
    change _ = (s.pushAll push xs >>= fun (u, growths) => pure (u, growth.toList ++ growths))
    cases s.pushAll push xs <;> rfl

theorem pushAll_cons_eq_ok_iff {push : Trie r α → α → Except Fault (Trie r α × Option Growth)} :
    t.pushAll push (x :: xs) = .ok (u, growths) ↔ ∃ s growth rest,
      push t x = .ok (s, growth) ∧ s.pushAll push xs = .ok (u, rest) ∧ growths = growth.toList ++ rest := by
  rw [pushAll_cons, bind_eq_ok_iff]
  constructor
  · rintro ⟨⟨s, growth⟩, first, pushed⟩
    obtain ⟨⟨_, rest⟩, others, same⟩ := bind_eq_ok_iff.mp pushed
    cases same
    exact ⟨s, growth, rest, first, others, rfl⟩
  · rintro ⟨s, growth, rest, first, others, rfl⟩
    exact ⟨(s, growth), first, bind_eq_ok_iff.mpr ⟨(u, rest), others, rfl⟩⟩

theorem pushAll_toList (accepted : t.Accepted) (allowed : t.PushesAllowed xs) :
    ∃ u growths, t.pushAll pushBack xs = .ok (u, growths) ∧ u.Accepted ∧ u.toList = t.toList ++ xs := by
  induction xs generalizing t with
  | nil => exact ⟨t, [], rfl, accepted, (List.append_nil _).symm⟩
  | cons x xs ih =>
    obtain ⟨s, growth, pushed, s_accepted, s_elements⟩ := pushBack_toList accepted allowed.1 x
    obtain ⟨u, growths, rest, u_accepted, elements⟩ := ih s_accepted (allowed.2 s growth pushed)
    refine ⟨u, growth.toList ++ growths, ?_, u_accepted, ?_⟩
    · exact pushAll_cons_eq_ok_iff.mpr ⟨s, growth, growths, pushed, rest, rfl⟩
    · rw [elements, s_elements, List.append_assoc, List.singleton_append]

theorem extend_toList (accepted : t.Accepted)
    (allowed : if t.isEmpty then Collectable r xs else t.PushesAllowed xs) :
    ∃ u growths, t.extend xs = .ok (u, growths) ∧ u.Accepted ∧ u.toList = t.toList ++ xs := by
  by_cases vacant : t.isEmpty = true
  · rw [if_pos vacant] at allowed
    obtain ⟨u, packed, u_accepted, elements⟩ := ofList_toList allowed
    have vacant_list : t.toList = [] := by
      rw [← List.length_eq_zero_iff, length_toList accepted]
      exact beq_iff_eq.mp vacant
    refine ⟨u, [], ?_, u_accepted, by rw [elements, vacant_list, List.nil_append]⟩
    rw [extend, if_pos vacant]
    exact bind_eq_ok_iff.mpr ⟨u, packed, rfl⟩
  · rw [if_neg vacant] at allowed
    obtain ⟨u, growths, pushed, u_accepted, elements⟩ := pushAll_toList accepted allowed
    exact ⟨u, growths, (if_neg vacant).trans pushed, u_accepted, elements⟩

end DigitTrie.Trie
