import DigitTrie.Proofs.Places

/-! Cutting and growing again. A cut removes slots and nodes for good, and leaves the level as it was. So the
tree still has room for what is missing at its end, and pushing that again, nearest element first, opens the
removed nodes one by one without adding a level: after each push the trie is the one that a shorter cut leaves,
and in the end it is the very trie that was cut. -/
namespace DigitTrie.Trie

variable {r : Radix} {α : Type} {x : α} {xs ys : List α} {s t u : Trie r α} {p : Place} {n k : Nat}

/-- Pushes that add no level, each of which leaves one element less that is missing. -/
theorem pushAll_silent {push : Trie r α → α → Except Fault (Trie r α × Option Growth)}
    {Missing : List α → Trie r α → Prop}
    (step : ∀ x xs s, Missing (x :: xs) s → ∃ u, push s x = .ok (u, none) ∧ Missing xs u)
    (start : Missing (xs ++ ys) t) : ∃ u, t.pushAll push xs = .ok (u, []) ∧ Missing ys u := by
  induction xs generalizing t with
  | nil => exact ⟨t, rfl, start⟩
  | cons x xs ih =>
    obtain ⟨s, first, left⟩ := step x (xs ++ ys) t start
    obtain ⟨u, others, done⟩ := ih left
    exact ⟨u, pushAll_cons_eq_ok_iff.mpr ⟨s, none, [], first, others, rfl⟩, done⟩

/-- What a cut at the front leaves of `t`, with what is missing before it, the nearest element first. -/
def CutBefore (t : Trie r α) (missing : List α) (s : Trie r α) : Prop :=
  ∃ n, n < t.length ∧ missing = (t.toList.take n).reverse ∧ t.drop n = .ok s

def CutBehind (t : Trie r α) (missing : List α) (s : Trie r α) : Prop :=
  ∃ n, 1 ≤ n ∧ n ≤ t.length ∧ missing = t.toList.drop n ∧ t.take n = .ok s

/-- What was skipped is the place of what is pushed to the front again. -/
theorem Holds.pushFront_skip (holds : t.Holds (p.skip (n + 1)) xs) (used : xs ≠ []) (x : α) :
    ∃ u, t.pushFront x = .ok (u, none) ∧ u.Holds (p.skip n) (x :: xs) := by
  have room : (p.skip (n + 1)).offset ≠ 0 := Nat.succ_ne_zero (p.offset + n)
  have back : (p.skip (n + 1)).pushFront r = p.skip n := if_neg room
  obtain ⟨u, growth, pushed, u_holds, silent⟩ := holds.pushFront used (fun blocked => room blocked.1) x
  rw [back] at u_holds
  have level : u.level = p.level := congrArg Place.level (u_holds.place (List.cons_ne_nil x xs))
  cases silent.mpr (level.trans (congrArg Place.level (holds.place used)).symm)
  exact ⟨u, pushed, u_holds⟩

theorem Holds.pushBack_inside (holds : t.Holds p xs) (used : xs ≠ [])
    (room : p.offset + xs.length < r.size * 2 ^ p.level) (x : α) :
    ∃ u, t.pushBack x = .ok (u, none) ∧ u.Holds p (xs ++ [x]) := by
  have same : p.pushBack r xs.length = p := if_neg (Nat.ne_of_lt room)
  obtain ⟨u, growth, pushed, u_holds, silent⟩ :=
    holds.pushBack used (fun blocked => Nat.ne_of_lt room blocked.1) x
  rw [same] at u_holds
  have level : u.level = p.level := congrArg Place.level (u_holds.place (List.concat_ne_nil x xs))
  cases silent.mpr (level.trans (congrArg Place.level (holds.place used)).symm)
  exact ⟨u, pushed, u_holds⟩

theorem CutBefore.step (accepted : t.Accepted) (cut : t.CutBefore (x :: xs) s) :
    ∃ u, s.pushFront x = .ok (u, none) ∧ t.CutBefore xs u := by
  obtain ⟨n, short, missing, dropped⟩ := cut
  cases n with
  | zero => cases missing
  | succ n =>
    rw [← length_toList accepted] at short
    have before : n < t.toList.length := Nat.lt_of_succ_lt short
    rw [List.take_succ_eq_append_getElem before, List.reverse_append] at missing
    obtain ⟨rfl, rfl⟩ := List.cons.inj missing
    obtain ⟨_, again, s_holds⟩ := accepted.holds.drop (n + 1)
    cases dropped.symm.trans again
    have left : t.toList.drop (n + 1) ≠ [] := mt List.drop_eq_nil_iff.mp (Nat.not_le.mpr short)
    obtain ⟨u, pushed, u_holds⟩ := s_holds.pushFront_skip left t.toList[n]
    rw [List.getElem_cons_drop] at u_holds
    obtain ⟨v, v_dropped, v_holds⟩ := accepted.holds.drop n
    cases u_holds.eq v_holds
    exact ⟨u, pushed, n, length_toList accepted ▸ before, rfl, v_dropped⟩

theorem CutBehind.step (accepted : t.Accepted) (cut : t.CutBehind (x :: xs) s) :
    ∃ u, s.pushBack x = .ok (u, none) ∧ t.CutBehind xs u := by
  obtain ⟨n, positive, -, missing, taken⟩ := cut
  have short : n < t.toList.length :=
    Nat.lt_of_not_le fun whole => by cases missing.trans (List.drop_of_length_le whole)
  rw [List.drop_eq_getElem_cons short] at missing
  obtain ⟨rfl, rfl⟩ := List.cons.inj missing
  obtain ⟨_, again, s_holds⟩ := accepted.holds.take n
  cases taken.symm.trans again
  have count : (t.toList.take n).length = n := List.length_take_of_le (Nat.le_of_lt short)
  have left : t.toList.take n ≠ [] := List.ne_nil_of_length_pos (by rwa [count])
  -- The whole of `t` is below the same root, and this is a shorter stretch from the same index on.
  have room : t.place.offset + (t.toList.take n).length < r.size * 2 ^ t.place.level := by
    have inside : t.place.offset + t.length ≤ r.size * 2 ^ t.place.level := accepted.inside
    rw [length_toList accepted] at short
    omega
  obtain ⟨u, pushed, u_holds⟩ := s_holds.pushBack_inside left room t.toList[n]
  rw [List.take_append_getElem short] at u_holds
  obtain ⟨v, v_taken, v_holds⟩ := accepted.holds.take (n + 1)
  cases u_holds.eq v_holds
  exact ⟨u, pushed, n + 1, Nat.succ_pos n, length_toList accepted ▸ short, rfl, v_taken⟩

/-- After `k` of the pushes the trie is the one that lacks `k` elements less. -/
theorem drop_pushAll (accepted : t.Accepted) (short : n < t.length) (dropped : t.drop n = .ok u) (few : k ≤ n) :
    ∃ v, u.pushAll pushFront ((t.toList.take n).reverse.take k) = .ok (v, []) ∧ t.drop (n - k) = .ok v ∧
      v.Accepted ∧ v.toList = t.toList.drop (n - k) := by
  have start : t.CutBefore ((t.toList.take n).reverse.take k ++ (t.toList.take n).reverse.drop k) u :=
    ⟨n, short, List.take_append_drop k _, dropped⟩
  obtain ⟨v, pushed, m, m_short, missing, v_dropped⟩ :=
    pushAll_silent (fun _ _ _ => CutBefore.step accepted) start
  have counts := congrArg List.length missing
  simp only [List.length_drop, List.length_reverse, List.length_take, length_toList accepted] at counts
  have left : m = n - k := by omega
  obtain ⟨_, again, v_accepted, elements⟩ := drop_toList accepted m
  cases v_dropped.symm.trans again
  exact ⟨v, pushed, left ▸ v_dropped, v_accepted, left ▸ elements⟩

theorem take_pushAll (accepted : t.Accepted) (positive : 1 ≤ n) (short : n ≤ t.length)
    (taken : t.take n = .ok u) (few : n + k ≤ t.length) :
    ∃ v, u.pushAll pushBack ((t.toList.drop n).take k) = .ok (v, []) ∧ t.take (n + k) = .ok v ∧
      v.Accepted ∧ v.toList = t.toList.take (n + k) := by
  have start : t.CutBehind ((t.toList.drop n).take k ++ (t.toList.drop n).drop k) u :=
    ⟨n, positive, short, List.take_append_drop k _, taken⟩
  obtain ⟨v, pushed, m, -, m_short, missing, v_taken⟩ :=
    pushAll_silent (fun _ _ _ => CutBehind.step accepted) start
  have counts := congrArg List.length missing
  simp only [List.length_drop, length_toList accepted] at counts
  have left : m = n + k := by omega
  obtain ⟨_, again, v_accepted, elements⟩ := take_toList accepted m
  cases v_taken.symm.trans again
  exact ⟨v, pushed, left ▸ v_taken, v_accepted, left ▸ elements⟩

theorem drop_regrown (accepted : t.Accepted) (short : n < t.length) (dropped : t.drop n = .ok u) :
    u.pushAll pushFront (t.toList.take n).reverse = .ok (t, []) := by
  obtain ⟨v, pushed, whole, -⟩ := drop_pushAll accepted short dropped (Nat.le_refl n)
  rw [Nat.sub_self] at whole
  cases whole
  rwa [List.take_of_length_le (by simp)] at pushed

theorem take_regrown (accepted : t.Accepted) (positive : 1 ≤ n) (short : n ≤ t.length)
    (taken : t.take n = .ok u) : u.pushAll pushBack (t.toList.drop n) = .ok (t, []) := by
  have all : n + (t.length - n) = t.length := Nat.add_sub_of_le short
  obtain ⟨v, pushed, last, -⟩ := take_pushAll accepted positive short taken (Nat.le_of_eq all)
  have whole : t.take t.length = .ok t := if_pos (Nat.le_refl _)
  rw [all, whole] at last
  cases last
  rwa [List.take_of_length_le (by rw [List.length_drop, length_toList accepted])] at pushed

/-! The other way round: what was pushed is cut off again. -/

namespace Place

theorem skip_pushFront : (p.pushFront r).skip 1 = p ↔ (p.pushFront r).level = p.level := by
  have bits := Nat.ne_of_gt r.bits_pos
  obtain ⟨level, offset⟩ := p
  by_cases full : offset = 0
  · simp [pushFront, skip, full, bits]
  · have back : offset - 1 + 1 = offset := Nat.sub_add_cancel (Nat.pos_of_ne_zero full)
    simp [pushFront, skip, full, back]

theorem pushBack_eq : p.pushBack r n = p ↔ (p.pushBack r n).level = p.level := by
  have bits := Nat.ne_of_gt r.bits_pos
  obtain ⟨level, offset⟩ := p
  by_cases full : offset + n = r.size * 2 ^ level
  · simp [pushBack, full, bits]
  · simp [pushBack, full]

end Place

theorem pushFront_cut (accepted : t.Accepted) (used : 0 < t.length) (room : ¬ t.FrontBlocked) (x : α) :
    ∃ u growth v, t.pushFront x = .ok (u, growth) ∧ u.Accepted ∧ u.toList = x :: t.toList ∧
      u.drop 1 = .ok v ∧ v.Accepted ∧ v.toList = t.toList ∧ (v = t ↔ u.level = t.level) ∧
      (growth = none ↔ u.level = t.level) := by
  have present := accepted.toList_ne_nil used
  obtain ⟨u, growth, pushed, u_holds, silent⟩ := accepted.holds.pushFront present room x
  obtain ⟨v, dropped, v_holds⟩ := u_holds.drop 1
  refine ⟨u, growth, v, pushed, u_holds.accepted, u_holds.elements, dropped, v_holds.accepted,
    v_holds.elements, ?_, silent⟩
  have level : u.level = (t.place.pushFront r).level :=
    congrArg Place.level (u_holds.place (List.cons_ne_nil x _))
  rw [v_holds.eq_iff present accepted.holds, Place.skip_pushFront, level]
  rfl

theorem pushBack_cut (accepted : t.Accepted) (used : 0 < t.length) (room : ¬ t.BackBlocked) (x : α) :
    ∃ u growth v, t.pushBack x = .ok (u, growth) ∧ u.Accepted ∧ u.toList = t.toList ++ [x] ∧
      u.take t.length = .ok v ∧ v.Accepted ∧ v.toList = t.toList ∧ (v = t ↔ u.level = t.level) ∧
      (growth = none ↔ u.level = t.level) := by
  have present := accepted.toList_ne_nil used
  have free := mt accepted.backBlocked_iff.mp room
  rw [← length_toList accepted]
  obtain ⟨u, growth, pushed, u_holds, silent⟩ := accepted.holds.pushBack present free x
  obtain ⟨v, taken, v_holds⟩ := u_holds.take t.toList.length
  rw [List.take_left] at v_holds
  refine ⟨u, growth, v, pushed, u_holds.accepted, u_holds.elements, taken, v_holds.accepted,
    v_holds.elements, ?_, silent⟩
  have level : u.level = (t.place.pushBack r t.toList.length).level :=
    congrArg Place.level (u_holds.place (List.concat_ne_nil x _))
  rw [v_holds.eq_iff present accepted.holds, Place.pushBack_eq, level]
  rfl

/-- What was cut off and pushed again leaves no mark: after each push the trie is the one that a shorter cut
leaves, in the end it is the one that was cut, tree and all, and no level was added. What was pushed and cut off
again leaves the elements as they were, and it leaves no mark either, unless the push had to add a level. -/
theorem cut_and_regrown (accepted : t.Accepted) (used : 0 < t.length) :
    (∀ n, n < t.length → ∃ u, t.drop n = .ok u ∧
      u.pushAll pushFront (t.toList.take n).reverse = .ok (t, []) ∧
      ∀ k, k ≤ n → ∃ v, u.pushAll pushFront ((t.toList.take n).reverse.take k) = .ok (v, []) ∧
        t.drop (n - k) = .ok v ∧ v.Accepted ∧ v.toList = t.toList.drop (n - k)) ∧
    (∀ n, 1 ≤ n → n ≤ t.length → ∃ u, t.take n = .ok u ∧
      u.pushAll pushBack (t.toList.drop n) = .ok (t, []) ∧
      ∀ k, n + k ≤ t.length → ∃ v, u.pushAll pushBack ((t.toList.drop n).take k) = .ok (v, []) ∧
        t.take (n + k) = .ok v ∧ v.Accepted ∧ v.toList = t.toList.take (n + k)) ∧
    (∀ x, ¬ t.FrontBlocked → ∃ u growth v, t.pushFront x = .ok (u, growth) ∧ u.Accepted ∧
      u.toList = x :: t.toList ∧ u.drop 1 = .ok v ∧ v.Accepted ∧ v.toList = t.toList ∧
      (v = t ↔ u.level = t.level) ∧ (growth = none ↔ u.level = t.level)) ∧
    (∀ x, ¬ t.BackBlocked → ∃ u growth v, t.pushBack x = .ok (u, growth) ∧ u.Accepted ∧
      u.toList = t.toList ++ [x] ∧ u.take t.length = .ok v ∧ v.Accepted ∧ v.toList = t.toList ∧
      (v = t ↔ u.level = t.level) ∧ (growth = none ↔ u.level = t.level)) := by
  refine ⟨fun n short => ?_, fun n positive short => ?_, fun x room => pushFront_cut accepted used room x,
    fun x room => pushBack_cut accepted used room x⟩
  · obtain ⟨u, dropped, -⟩ := drop_toList accepted n
    exact ⟨u, dropped, drop_regrown accepted short dropped, fun k few => drop_pushAll accepted short dropped few⟩
  · obtain ⟨u, taken, -⟩ := take_toList accepted n
    exact ⟨u, taken, take_regrown accepted positive short taken,
      fun k few => take_pushAll accepted positive short taken few⟩

/-- A window over three leaves: dropping three of its four elements removes two leaves and a node above
them, and the pushes bring them back; and a push to the front that adds a level leaves it there. -/
theorem cut_and_regrown_three_leaves :
    (filled id 2 3 4 : Trie Radix.binary Nat).Accepted ∧
      (∃ u : Trie Radix.binary Nat, (filled id 2 3 4).drop 3 = .ok u ∧
        u.pushAll pushFront [5, 4, 3] = .ok (filled id 2 3 4, [])) ∧
      (filled id 1 0 4 : Trie Radix.binary Nat).Accepted ∧
      ∃ (u : Trie Radix.binary Nat) (growth : Option Growth) (v : Trie Radix.binary Nat),
        (filled id 1 0 4).pushFront 7 = .ok (u, growth) ∧ u.drop 1 = .ok v ∧
          v.toList = [0, 1, 2, 3] ∧ (v = filled id 1 0 4 ↔ u.level = 1) := by
  have accepted : (filled id 2 3 4 : Trie Radix.binary Nat).Accepted :=
    filled_accepted ⟨by decide, by decide, by decide⟩
  have full : (filled id 1 0 4 : Trie Radix.binary Nat).Accepted :=
    filled_accepted ⟨by decide, by decide, by decide⟩
  have word : ¬ (filled id 1 0 4 : Trie Radix.binary Nat).FrontBlocked := fun blocked =>
    absurd blocked.2 (by decide)
  obtain ⟨s, cut, regrown, -⟩ := (cut_and_regrown accepted (by decide)).1 3 (by decide)
  obtain ⟨u, growth, v, pushed, -, -, dropped, -, elements, same, -⟩ :=
    (cut_and_regrown full (by decide)).2.2.1 7 word
  exact ⟨accepted, ⟨s, cut, regrown⟩, full, u, growth, v, pushed, dropped, elements, same⟩

end DigitTrie.Trie
