import DigitTrie.Proofs.Refinement

/-! One tree for each window. Nothing of its past can be told from a trie: two accepted tries with the same
level, offset and elements have the same tree, whatever was pushed, dropped and truncated to make them. So
an equation between tries follows from three readings, and no later proof has to look at a tree for it. -/
namespace DigitTrie.Trie

variable {r : Radix} {α : Type} {f g : Nat → α} {t u : Trie r α} {height offset length : Nat}

theorem filled_congr (positive : 0 < length)
    (same : (List.range' offset length).map f = (List.range' offset length).map g) :
    (filled f height offset length : Trie r α) = filled g height offset length := by
  have agree : ∀ p, offset ≤ p → p ≤ offset + length - 1 → f p = g p := by
    intro p left right
    exact List.map_inj_left.mp same p (List.mem_range'_1.mpr ⟨left, by omega⟩)
  simp only [filled, Node.filled_congr agree]

/-- The level, the offset and the elements of an accepted trie leave no choice for the rest of it. -/
theorem Accepted.ext (t_accepted : t.Accepted) (u_accepted : u.Accepted) (level : t.level = u.level)
    (offset : t.offset = u.offset) (elements : t.toList = u.toList) : t = u := by
  have lengths : t.length = u.length := by
    rw [← length_toList t_accepted, elements, length_toList u_accepted]
  rcases t_accepted.cases with rfl | ⟨f, height, o, n, admits, rfl⟩
  · exact (u_accepted.eq_empty lengths.symm).symm
  · rcases u_accepted.cases with rfl | ⟨g, height', o', n', admits', rfl⟩
    · exact absurd lengths (Nat.ne_of_gt admits.positive)
    · simp only [level_filled, offset_filled, length_filled] at level offset lengths
      cases Radix.level_injective level
      cases offset
      cases lengths
      rw [toList_filled admits, toList_filled admits'] at elements
      exact filled_congr admits.positive elements

theorem accepted_of_history {ops : List (Op α)} {steps : List (Outcome × Trie r α)}
    (accepted : t.Accepted) (allowed : t.Allows ops) (run : t.history ops = .ok steps) :
    ∀ step ∈ steps, step.2.Accepted := by
  intro step member
  obtain ⟨_, again, represents⟩ := history_represents accepted allowed
  cases run.symm.trans again
  obtain ⟨i, inside, rfl⟩ := List.mem_iff_getElem.mp member
  exact (represents.get inside (represents.length_eq ▸ inside)).2.audit

/-- An allowed run from the empty trie leads through this trie. -/
def Reached (t : Trie r α) : Prop :=
  ∃ ops steps outcome, (empty : Trie r α).Allows ops ∧ (empty : Trie r α).history ops = .ok steps ∧
    (outcome, t) ∈ steps

theorem Reached.of_history {ops : List (Op α)} {steps : List (Outcome × Trie r α)} {outcome : Outcome}
    (allowed : (empty : Trie r α).Allows ops) (run : (empty : Trie r α).history ops = .ok steps)
    (member : (outcome, t) ∈ steps) : t.Reached :=
  ⟨ops, steps, outcome, allowed, run, member⟩

theorem Reached.accepted (reached : t.Reached) : t.Accepted := by
  obtain ⟨ops, steps, outcome, allowed, run, member⟩ := reached
  exact accepted_of_history empty_accepted allowed run _ member

/-- Two accepted tries with the same level, offset and elements have the same tree, slot for slot; so no
history leaves a different tree behind the same window and contents. -/
theorem root_determined :
    (∀ t u : Trie r α, t.Accepted → u.Accepted →
      t.level = u.level → t.offset = u.offset → t.elements = u.elements → t.root = u.root) ∧
    (∀ t u : Trie r α, t.Reached → u.Reached →
      t.level = u.level → t.offset = u.offset → t.elements = u.elements → t = u) := by
  have same (t u : Trie r α) (t_accepted : t.Accepted) (u_accepted : u.Accepted)
      (level : t.level = u.level) (offset : t.offset = u.offset) (elements : t.elements = u.elements) :
      t = u := by
    rw [elements_toList t_accepted, elements_toList u_accepted] at elements
    exact t_accepted.ext u_accepted level offset (Except.ok.inj elements)
  refine ⟨fun t u t_accepted u_accepted level offset elements => ?_, fun t u t_reached u_reached => ?_⟩
  · rw [same t u t_accepted u_accepted level offset elements]
  · exact same t u t_reached.accepted u_reached.accepted

/-- A packed trie that lost its first element, and one that grew to the front and lost its last. -/
theorem root_determined_two_pasts :
    ∃ p q s t u : Trie Radix.binary Char,
      (empty : Trie Radix.binary Char).history [.ofList ['a', 'b', 'c'], .drop 1] =
        .ok [(.done, p), (.done, t)] ∧
      (empty : Trie Radix.binary Char).history [.ofList ['c', 'd'], .pushFront 'b', .take 2] =
        .ok [(.done, q), (.done, s), (.done, u)] ∧
      t.elements = u.elements ∧ t.root = u.root ∧ t = u := by
  have cut : (empty : Trie Radix.binary Char).history [.ofList ['a', 'b', 'c'], .drop 1] =
      .ok [(.done, ⟨some (.interior 0 [.leaf 0 ['a', 'b'], .leaf 0 ['c']]), 0, 3, 1⟩),
        (.done, ⟨some (.interior 0 [.leaf 1 ['b'], .leaf 0 ['c']]), 1, 2, 1⟩)] := by cbv
  have grown : (empty : Trie Radix.binary Char).history [.ofList ['c', 'd'], .pushFront 'b', .take 2] =
      .ok [(.done, ⟨some (.leaf 0 ['c', 'd']), 0, 2, 0⟩),
        (.done, ⟨some (.interior 0 [.leaf 1 ['b'], .leaf 0 ['c', 'd']]), 1, 3, 1⟩),
        (.done, ⟨some (.interior 0 [.leaf 1 ['b'], .leaf 0 ['c']]), 1, 2, 1⟩)] := by cbv
  have packed : (Op.ofList ['c', 'd']).perform (empty : Trie Radix.binary Char) =
      .ok (.done, ⟨some (.leaf 0 ['c', 'd']), 0, 2, 0⟩) := by cbv
  have three : Collectable Radix.binary ['a', 'b', 'c'] := ⟨1, by decide, by decide, by decide⟩
  have two : Collectable Radix.binary ['c', 'd'] := ⟨0, by decide, by decide, by decide⟩
  have cuts : (empty : Trie Radix.binary Char).Allows [.ofList ['a', 'b', 'c'], .drop 1] :=
    ⟨three, fun _ _ _ => ⟨trivial, fun _ _ _ => trivial⟩⟩
  have grows : (empty : Trie Radix.binary Char).Allows [.ofList ['c', 'd'], .pushFront 'b', .take 2] := by
    refine ⟨two, fun _ _ performed => ?_⟩
    cases packed.symm.trans performed
    exact ⟨fun blocked => absurd blocked.2 (by decide), fun _ _ _ => ⟨trivial, fun _ _ _ => trivial⟩⟩
  have cut_reached := Reached.of_history cuts cut (List.mem_cons_of_mem _ List.mem_cons_self)
  have grown_reached := Reached.of_history grows grown
    (List.mem_cons_of_mem _ (List.mem_cons_of_mem _ List.mem_cons_self))
  exact ⟨_, _, _, _, _, cut, grown, rfl,
    root_determined.1 _ _ cut_reached.accepted grown_reached.accepted rfl rfl rfl,
    root_determined.2 _ _ cut_reached grown_reached rfl rfl rfl⟩

end DigitTrie.Trie
