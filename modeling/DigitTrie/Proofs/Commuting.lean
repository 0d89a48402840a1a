import DigitTrie.Proofs.Runs
import DigitTrie.Proofs.Slicing

/-! Opposite ends do not disturb each other. What is done at one end moves that end of the elements only, unless
a level is added in front: then all indices move, but the room before and behind the elements stays what it was,
so the other end cannot tell. Only where the elements fill the tree do two pushes have to add two levels, and
then the order decides in which of them the elements lie. -/
namespace DigitTrie.Trie

variable {r : Radix} {α : Type} {x y : α} {xs : List α} {t : Trie r α} {p : Place} {n length : Nat}

namespace Place

theorem skip_stop (inside : n ≤ length) : (p.skip n).offset + (length - n) = p.offset + length := by
  unfold skip
  dsimp only
  omega

theorem pushBack_skip (inside : n ≤ length) :
    (p.skip n).pushBack r (length - n) = (p.pushBack r length).skip n := by
  rw [pushBack, pushBack, skip_stop inside]
  by_cases full : p.offset + length = r.size * 2 ^ p.level
  · simp [skip, full]
  · simp [skip, full]

/-- A level that is added in front leaves as much room behind the elements as there was. -/
theorem grown_stop_iff (level length : Nat) :
    (r.size - 1) * 2 ^ (level + r.bits) - 1 + (length + 1) = r.size * 2 ^ (level + r.bits) ↔
      length = r.size * 2 ^ level := by
  have two := r.two_le_size
  have room : 0 < r.size * 2 ^ level := Nat.mul_pos r.size_pos (Nat.two_pow_pos level)
  have before : 0 < (r.size - 1) * (r.size * 2 ^ level) := Nat.mul_pos (by omega) room
  rw [Radix.two_pow_add_bits, ← r.others_add_last (r.size * 2 ^ level)]
  omega

/-- Unless the elements fill the tree, one level is enough for a push to either end. -/
theorem pushBack_pushFront (free : ¬ p.Fills r n) :
    (p.pushFront r).pushBack r (n + 1) = (p.pushBack r n).pushFront r := by
  obtain ⟨level, offset⟩ := p
  by_cases front : offset = 0
  · have back : n ≠ r.size * 2 ^ level := fun full => free ⟨front, full⟩
    simp [pushFront, pushBack, front, back, grown_stop_iff]
  · have stop : offset - 1 + (n + 1) = offset + n := by omega
    by_cases back : offset + n = r.size * 2 ^ level
    · simp [pushFront, pushBack, front, back, stop]
    · simp [pushFront, pushBack, front, back, stop]

/-- Where the elements fill the tree, both pushes add a level, and the elements end in the last child of the
level that was added in front: the lower of the two, or the upper one. -/
theorem pushes_of_fills (fills : p.Fills r n) :
    ((p.pushFront r).pushBack r (n + 1)).level = ((p.pushBack r n).pushFront r).level ∧
      ((p.pushFront r).pushBack r (n + 1)).offset < ((p.pushBack r n).pushFront r).offset := by
  obtain ⟨level, offset⟩ := p
  obtain ⟨rfl, rfl⟩ : offset = 0 ∧ n = r.size * 2 ^ level := fills
  have stop := (grown_stop_iff (r := r) level _).mpr rfl
  have others : 0 < r.size - 1 := Nat.sub_pos_of_lt r.two_le_size
  have first : 0 < (r.size - 1) * 2 ^ (level + r.bits) := Nat.mul_pos others (Nat.two_pow_pos _)
  have lower : 2 ^ (level + r.bits) < 2 ^ (level + r.bits + r.bits) :=
    Nat.pow_lt_pow_right (by decide) (Nat.lt_add_of_pos_right r.bits_pos)
  have moved := Nat.mul_lt_mul_of_pos_left lower others
  simp only [pushFront, pushBack, stop, Nat.zero_add, if_true, true_and]
  omega

end Place

theorem drop_pushBack_joins (accepted : t.Accepted) (short : n < t.length) (room : ¬ t.BackBlocked) (x : α) :
    t.Joins [.drop n, .pushBack x] [.pushBack x, .drop n] := by
  rw [← length_toList accepted] at short
  have inside := Nat.le_of_lt short
  have present : t.toList ≠ [] := List.ne_nil_of_length_pos (Nat.zero_lt_of_lt short)
  have left : t.toList.drop n ≠ [] := mt List.drop_eq_nil_iff.mp (Nat.not_le.mpr short)
  have free := mt accepted.backBlocked_iff.mp room
  have left_free : ¬ (t.place.skip n).BackBlocked r (t.toList.drop n).length := by
    rwa [List.length_drop, Place.BackBlocked, Place.skip_stop inside]
  have one := (accepted.leads.drop n).pushBack left left_free x
  have other := (accepted.leads.pushBack present free x).drop n
  rw [List.length_drop, Place.pushBack_skip inside] at one
  rw [List.drop_append_of_le_length inside] at other
  exact one.joins other

theorem take_pushFront_joins (accepted : t.Accepted) (positive : 0 < n) (short : n ≤ t.length)
    (room : ¬ t.FrontBlocked) (x : α) :
    t.Joins [.take n, .pushFront x] [.pushFront x, .take (n + 1)] := by
  have present := accepted.toList_ne_nil (Nat.lt_of_lt_of_le positive short)
  have left : t.toList.take n ≠ [] :=
    mt List.take_eq_nil_iff.mp (not_or.mpr ⟨Nat.ne_of_gt positive, present⟩)
  exact ((accepted.leads.take n).pushFront left room x).joins
    ((accepted.leads.pushFront present room x).take (n + 1))

theorem run_singleton (op : Op α) : t.run [op] = op.apply t := by
  rw [Trie.run, List.foldlM_cons]
  dsimp only
  cases op.apply t <;> rfl

/-- What is allowed after an operation is allowed on the trie that the operation leads to. -/
theorem Leads.then_allowed {first next : Op α} (leads : t.Leads [first] p xs)
    (allows : t.Allows [first, next]) : ∃ s : Trie r α, s.Holds p xs ∧ next.Allowed s := by
  obtain ⟨s, growths, run, s_holds⟩ := leads
  rw [run_singleton] at run
  exact ⟨s, s_holds, (allows.2 _ s (Op.perform_done run)).1⟩

theorem pushes_lead (accepted : t.Accepted) (used : 0 < t.length)
    (front_first : t.Allows [.pushFront y, .pushBack x]) (back_first : t.Allows [.pushBack x, .pushFront y]) :
    t.Leads [.pushFront y, .pushBack x] ((t.place.pushFront r).pushBack r (t.length + 1))
        (y :: t.toList ++ [x]) ∧
      t.Leads [.pushBack x, .pushFront y] ((t.place.pushBack r t.length).pushFront r)
        (y :: t.toList ++ [x]) := by
  have present := accepted.toList_ne_nil used
  rw [← length_toList accepted]
  constructor
  · have front := accepted.leads.pushFront present front_first.1 y
    obtain ⟨s, s_holds, room⟩ := front.then_allowed front_first
    have then_used : y :: t.toList ≠ [] := List.cons_ne_nil y _
    have free : ¬ (t.place.pushFront r).BackBlocked r (y :: t.toList).length := by
      rw [← s_holds.place then_used, ← s_holds.length]
      exact room
    exact front.pushBack then_used free x
  · have free := mt accepted.backBlocked_iff.mp back_first.1
    have back := accepted.leads.pushBack present free x
    obtain ⟨s, s_holds, room⟩ := back.then_allowed back_first
    have then_used : t.toList ++ [x] ≠ [] := List.concat_ne_nil x _
    have then_free : ¬ (t.place.pushBack r t.toList.length).FrontBlocked r := by
      rw [← s_holds.place then_used]
      exact room
    exact back.pushFront then_used then_free y

/-- What is done at opposite ends can be done in either order: the tries are the same, tree and all, also
where one of the orders has to add a level before the other does. The one exception are two pushes to a
trie that fills its tree: then the two tries have the same elements below roots at the same level, and only
their offsets differ. -/
theorem ends_commute (accepted : t.Accepted) (used : 0 < t.length) :
    (∀ n x, n < t.length → ¬ t.BackBlocked →
      t.Joins [.drop n, .pushBack x] [.pushBack x, .drop n]) ∧
    (∀ n x, 1 ≤ n → n ≤ t.length → ¬ t.FrontBlocked →
      t.Joins [.take n, .pushFront x] [.pushFront x, .take (n + 1)]) ∧
    (∀ n m, n ≤ m → m ≤ t.length → t.Joins [.take m, .drop n] [.drop n, .take (m - n)]) ∧
    (∀ x y, t.Allows [.pushFront y, .pushBack x] → t.Allows [.pushBack x, .pushFront y] →
      (¬ (t.offset = 0 ∧ t.length = r.size * 2 ^ t.level) →
        t.Joins [.pushFront y, .pushBack x] [.pushBack x, .pushFront y]) ∧
      (t.offset = 0 ∧ t.length = r.size * 2 ^ t.level →
        ∃ u v growths reported, t.run [.pushFront y, .pushBack x] = .ok (u, growths) ∧
          t.run [.pushBack x, .pushFront y] = .ok (v, reported) ∧ u.Accepted ∧ v.Accepted ∧
          u.toList = v.toList ∧ u.length = v.length ∧ u.level = v.level ∧ u.offset ≠ v.offset)) := by
  refine ⟨fun n x short room => drop_pushBack_joins accepted short room x,
    fun n x positive short room => take_pushFront_joins accepted positive short room x,
    fun n m _ _ => take_drop_joins accepted n m, fun x y front_first back_first => ?_⟩
  obtain ⟨front, back⟩ := pushes_lead accepted used front_first back_first
  constructor
  · intro free
    rw [Place.pushBack_pushFront (p := t.place) free] at front
    exact front.joins back
  · intro fills
    obtain ⟨u, growths, run, u_holds⟩ := front
    obtain ⟨v, reported, other, v_holds⟩ := back
    obtain ⟨level, offset⟩ := Place.pushes_of_fills (p := t.place) (r := r) fills
    have lengths : u.length = v.length := u_holds.length.trans v_holds.length.symm
    rw [← u_holds.place (List.cons_ne_nil y _), ← v_holds.place (List.cons_ne_nil y _)] at level offset
    exact ⟨u, v, growths, reported, run, other, u_holds.accepted, v_holds.accepted,
      u_holds.elements.trans v_holds.elements.symm, lengths, level, Nat.ne_of_lt offset⟩

/-- A full leaf: a cut commutes with a push that adds a level, and the two orders of two pushes lead to
different offsets. -/
theorem ends_commute_full_leaf :
    (filled Nat.succ 0 0 2 : Trie Radix.binary Nat).Accepted ∧
      (filled Nat.succ 0 0 2 : Trie Radix.binary Nat).Joins [.drop 1, .pushBack 7] [.pushBack 7, .drop 1] ∧
      ∃ (u v : Trie Radix.binary Nat) (growths reported : List Growth),
        (filled Nat.succ 0 0 2).run [.pushFront 5, .pushBack 7] = .ok (u, growths) ∧
        (filled Nat.succ 0 0 2).run [.pushBack 7, .pushFront 5] = .ok (v, reported) ∧
        u.toList = v.toList ∧ u.level = v.level ∧ u.offset ≠ v.offset := by
  have accepted : (filled Nat.succ 0 0 2 : Trie Radix.binary Nat).Accepted :=
    filled_accepted ⟨by decide, by decide, by decide⟩
  have front : (Op.pushFront 5).perform (filled Nat.succ 0 0 2 : Trie Radix.binary Nat) =
      .ok (.done, ⟨some (.interior 0 [.leaf 1 [5], .leaf 0 [1, 2]]), 1, 3, 1⟩) := by cbv
  have back : (Op.pushBack 7).perform (filled Nat.succ 0 0 2 : Trie Radix.binary Nat) =
      .ok (.done, ⟨some (.interior 0 [.leaf 0 [1, 2], .leaf 0 [7]]), 0, 3, 1⟩) := by cbv
  have front_first : (filled Nat.succ 0 0 2 : Trie Radix.binary Nat).Allows [.pushFront 5, .pushBack 7] := by
    refine ⟨fun blocked => absurd blocked.2 (by decide), fun _ _ performed => ?_⟩
    cases front.symm.trans performed
    exact ⟨fun blocked => absurd blocked.2 (by decide), fun _ _ _ => trivial⟩
  have back_first : (filled Nat.succ 0 0 2 : Trie Radix.binary Nat).Allows [.pushBack 7, .pushFront 5] := by
    refine ⟨fun blocked => absurd blocked.2 (by decide), fun _ _ performed => ?_⟩
    cases back.symm.trans performed
    exact ⟨fun blocked => absurd blocked.2 (by decide), fun _ _ _ => trivial⟩
  obtain ⟨cut_back, -, -, pushes⟩ := ends_commute accepted (by decide)
  obtain ⟨u, v, growths, reported, run, other, -, -, elements, -, level, offset⟩ :=
    (pushes 7 5 front_first back_first).2 (by decide)
  exact ⟨accepted, cut_back 1 7 (by decide) back_first.1, u, v, growths, reported, run, other, elements,
    level, offset⟩

end DigitTrie.Trie
