import DigitTrie.Node.Lookup
import DigitTrie.Proofs.EditEffect
import DigitTrie.Proofs.Shape

/-! Editing any tree of the right height, however badly filled: with gaps, with missing children, with nodes
that have no slot in use. No window is left here to compare trees by; instead a tree is read index by index,
and an edit does to this reading what `Edit.effect` says. One step of the walk gives the law of a node, the
rest of the walk the law of the child, and the two meet in the slot that the index goes through. -/
namespace DigitTrie.Node

variable {r : Radix} {α : Type} {change : Edit α} {place p height : Nat} {children : List (Node α)}
  {node result : Node α}

/-- The element that a tree at `height` stores for an index. Where the path of the index ends early, none
is stored. -/
def stored (r : Radix) : (height : Nat) → Node α → Nat → Option α
  | 0, .leaf start slots, p => Slots.at? slots start (p % r.size)
  | height + 1, .interior start children, p =>
    (Slots.at? children start (p / r.span (height + 1) % r.size)).bind fun child =>
      stored r height child p
  | _, _, _ => none

theorem stored_empty : stored r height (empty (r.level height) : Node α) p = none := by
  cases height with
  | zero => simp [empty, stored]
  | succ height => simp [empty, stored, Radix.level_succ_ne_zero]

theorem empty_shaped : Shaped r (r.level height) (empty (r.level height) : Node α) := by
  have size := r.size_pos
  cases height with
  | zero =>
    rw [empty, if_pos Radix.level_zero, Radix.level_zero]
    exact .leaf (Nat.zero_le _)
  | succ height =>
    rw [empty, if_neg Radix.level_succ_ne_zero, Radix.level_succ]
    exact .interior (Nat.zero_le _) (fun child member => absurd member List.not_mem_nil)

/-- In a tree of the right height a look-up never fails; it finds what is stored. -/
theorem lookup_stored (shaped : Shaped r (r.level height) node) (word : r.level height < 64) :
    node.lookup r (r.level height) p = .ok (node.stored r height p) := by
  induction height generalizing node with
  | zero =>
    obtain ⟨start, slots, rfl, -⟩ := shaped_zero shaped
    rw [lookup, findLeaf, if_pos Radix.level_zero]
    rfl
  | succ height ih =>
    obtain ⟨start, children, rfl, -, below⟩ := shaped_succ shaped
    rw [lookup, findLeaf, Radix.digit_level word, stored]
    cases found : Slots.at? children start (p / r.span (height + 1) % r.size) with
    | none =>
      simp only [bind, Except.bind, found]
      rfl
    | some child =>
      have inside : child ∈ children := List.mem_of_getElem? (Slots.at?_eq_some_iff.mp found).2
      have lower := ih (below child inside) (Nat.lt_trans Radix.level_lt_succ word)
      rw [lookup] at lower
      simp only [bind, Except.bind, found, if_pos Radix.bits_le_level_succ, Radix.level_succ_sub_bits]
      exact lower

theorem editBelow_cases {start : Nat} (word : r.level (height + 1) < 64)
    (edited : (interior start children).editBelow r change (r.level (height + 1)) place = .ok result) :
    ∃ opened child below,
      change.openNode r start children (place / r.span (height + 1) % r.size) (r.level (height + 1)) =
        .ok opened ∧
      opened.children[opened.slot]? = some child ∧
      child.editBelow r change (r.level height) place = .ok below ∧
      result = .interior opened.start (opened.children.set opened.slot below) := by
  rw [editBelow, if_neg Radix.level_succ_ne_zero, Radix.digit_level word] at edited
  simp only [if_pos Radix.bits_le_level_succ, Radix.level_succ_sub_bits] at edited
  obtain ⟨_, digit, edited⟩ := bind_eq_ok_iff.mp edited
  cases digit
  obtain ⟨opened, opens, edited⟩ := bind_eq_ok_iff.mp edited
  obtain ⟨child, found, edited⟩ := bind_eq_ok_iff.mp edited
  obtain ⟨below, lower, made⟩ := bind_eq_ok_iff.mp edited
  cases made
  exact ⟨opened, child, below, opens, Slots.get_eq_ok_iff.mp found, lower, rfl⟩

/-- Below one node, an edit that goes through does to what is stored what it says. -/
theorem editBelow_effect (shaped : Shaped r (r.level height) node) (word : r.level height < 64)
    (edited : node.editBelow r change (r.level height) place = .ok result) :
    Shaped r (r.level height) result ∧ change.Meets (node.stored r height place) ∧
      ∀ p, p / r.span (height + 1) = place / r.span (height + 1) →
        result.stored r height p = change.effect place (node.stored r height) p := by
  induction height generalizing node result with
  | zero =>
    obtain ⟨start, slots, rfl, room⟩ := shaped_zero shaped
    rw [editBelow_leaf] at edited
    obtain ⟨first, kept, rfl, short, meets, effect⟩ :=
      Edit.applyToLeaf_effect room (Nat.mod_lt _ r.size_pos) edited
    refine ⟨by rw [Radix.level_zero]; exact .leaf short, meets, fun p same => ?_⟩
    have digit := Radix.digit_eq_iff same
    have apart := Edit.kept_digit (β := α) change same
    simp only [Radix.span_zero, Nat.div_one] at digit apart
    simp only [stored, effect, Edit.effect, digit]
    split
    · rfl
    · exact apart ‹_› _
  | succ height ih =>
    obtain ⟨start, children, rfl, room, below⟩ := shaped_succ shaped
    obtain ⟨opened, child, lower, opens, found, edits, rfl⟩ := editBelow_cases word edited
    have law := Edit.openNode_opens room (Nat.mod_lt _ r.size_pos) opens found
    have each (c) (member : c ∈ opened.children) : Shaped r (r.level height) c := by
      rcases law.origin found member with old | rfl
      · exact below c old
      · exact empty_shaped
    obtain ⟨lower_shaped, meets, effect⟩ :=
      ih (each child (List.mem_of_getElem? found)) (Nat.lt_trans Radix.level_lt_succ word) edits
    -- Where the path goes on, the old node stored what the child stores, also if the child is fresh.
    have path (q) (here : q / r.span (height + 1) % r.size = place / r.span (height + 1) % r.size) :
        (interior start children).stored r (height + 1) q = child.stored r height q := by
      rw [stored, here]
      rcases law.path with stands | ⟨none, rfl⟩
      · rw [stands, Option.bind_some]
      · rw [none, Option.bind_none, stored_empty]
    have inside := (List.getElem?_eq_some_iff.mp found).1
    refine ⟨?_, path place rfl ▸ meets, fun p same => ?_⟩
    · rw [Radix.level_succ]
      refine .interior (by rw [List.length_set]; exact law.room) fun c member => ?_
      rcases List.mem_or_eq_of_mem_set member with old | rfl
      · exact each c old
      · exact lower_shaped
    · rw [stored, Slots.at?_set inside, law.place]
      have digit := Radix.digit_eq_iff same
      by_cases slot : p / r.span (height + 1) = place / r.span (height + 1)
      · rw [if_pos (digit.mpr slot), Option.bind_some, effect p slot]
        simp only [Edit.effect, path place rfl, path p (digit.mpr slot)]
      · have apart : p ≠ place := fun same => slot (by rw [same])
        rw [if_neg (mt digit.mp slot), law.others _ (mt digit.mp slot), Edit.kept_bind,
          Edit.kept_digit change same slot, Edit.effect, if_neg apart]
        rfl

/-- A path that leads to an element can be followed by every edit that puts none. -/
theorem editBelow_of_stored {x : α} (shaped : Shaped r (r.level height) node) (word : r.level height < 64)
    (addsNone : change.AddsNone) (found : node.stored r height place = some x) :
    ∃ result, node.editBelow r change (r.level height) place = .ok result := by
  induction height generalizing node with
  | zero =>
    obtain ⟨start, slots, rfl, -⟩ := shaped_zero shaped
    rw [editBelow_leaf]
    exact Edit.applyToLeaf_of_stands addsNone found
  | succ height ih =>
    obtain ⟨start, children, rfl, -, below⟩ := shaped_succ shaped
    obtain ⟨child, stands, lower⟩ := Option.bind_eq_some_iff.mp found
    have inside : child ∈ children := List.mem_of_getElem? (Slots.at?_eq_some_iff.mp stands).2
    obtain ⟨opened, opens, here⟩ := Edit.openNode_of_stands change stands
    obtain ⟨result, edited⟩ := ih (below child inside) (Nat.lt_trans Radix.level_lt_succ word) lower
    exact ⟨_, editBelow_interior word opens here edited⟩

/-! Whole trees. -/

/-- An edit that goes through does to the look-ups of the tree what it says, index by index. -/
theorem edit_effect (shaped : Shaped r (r.level height) node) (word : r.level height < 64)
    (edited : node.edit r change (r.level height) place = .ok result) :
    Shaped r (r.level height) result ∧ place >>> r.level height < r.size ∧
      change.Meets (node.stored r height place) ∧
      ∀ p, p >>> r.level height < r.size →
        result.lookup r (r.level height) p = .ok (change.effect place (node.stored r height) p) := by
  obtain ⟨inside, below⟩ := (edit_eq_ok_iff word).mp edited
  obtain ⟨result_shaped, meets, effect⟩ := editBelow_effect shaped word below
  refine ⟨result_shaped, (Radix.shiftRight_level_lt_iff height place).mpr inside, meets, fun p root => ?_⟩
  have root := (Radix.shiftRight_level_lt_iff height p).mp root
  rw [lookup_stored result_shaped word, effect p (by rw [Nat.div_eq_of_lt root, Nat.div_eq_of_lt inside])]

theorem overwritten {x : α} {index : Nat} (root : index >>> r.level height < r.size)
    (effect : ∀ p, p >>> r.level height < r.size →
      result.lookup r (r.level height) p = .ok (if p = index then some x else node.stored r height p)) :
    result.lookup r (r.level height) index = .ok (some x) ∧
      ∀ p, p >>> r.level height < r.size → p ≠ index →
        result.lookup r (r.level height) p = .ok (node.stored r height p) := by
  refine ⟨?_, fun p inside other => ?_⟩
  · rw [effect index root, if_pos rfl]
  · rw [effect p inside, if_neg other]

/-- An edit of any tree of the right height that goes through gives a tree of that height, and what is looked
up in it is what the edit says: a replacement needs an element to replace and a push a free place, both leave
all other look-ups as they were, and a cut leaves those on its side and ends the others. Where an element is
stored at the index, a replacement and both cuts do go through. -/
theorem edit_on_any_tree {level : Nat} (aligned : level % r.bits = 0) (word : level < 64)
    (shaped : Shaped r level node) (index : Nat) :
    (∀ p, ∃ found, node.lookup r level p = .ok found) ∧
    (∀ change edited, node.edit r change level index = .ok edited →
      Shaped r level edited ∧ index >>> level < r.size) ∧
    (∀ x edited, node.edit r (.replace x) level index = .ok edited →
      (∃ y, node.lookup r level index = .ok (some y)) ∧ edited.lookup r level index = .ok (some x) ∧
      ∀ p, p >>> level < r.size → p ≠ index → edited.lookup r level p = node.lookup r level p) ∧
    (∀ x edited, node.edit r (.pushBack x) level index = .ok edited ∨
        node.edit r (.pushFront x) level index = .ok edited →
      node.lookup r level index = .ok none ∧ edited.lookup r level index = .ok (some x) ∧
      ∀ p, p >>> level < r.size → p ≠ index → edited.lookup r level p = node.lookup r level p) ∧
    (∀ edited, node.edit r .keepFrom level index = .ok edited → ∀ p, p >>> level < r.size →
      edited.lookup r level p = if index ≤ p then node.lookup r level p else .ok none) ∧
    (∀ edited, node.edit r .keepThrough level index = .ok edited → ∀ p, p >>> level < r.size →
      edited.lookup r level p = if p ≤ index then node.lookup r level p else .ok none) ∧
    (index >>> level < r.size → (∃ y, node.lookup r level index = .ok (some y)) →
      (∀ x, ∃ edited, node.edit r (.replace x) level index = .ok edited) ∧
      (∃ edited, node.edit r .keepFrom level index = .ok edited) ∧
      (∃ edited, node.edit r .keepThrough level index = .ok edited)) := by
  obtain ⟨height, rfl⟩ := Radix.eq_level_of_mod_bits aligned
  have reads (p) := lookup_stored (p := p) shaped word
  simp only [reads]
  refine ⟨fun p => ⟨_, rfl⟩, fun change edited done => ?_, ?_, ?_, ?_, ?_, ?_⟩
  · obtain ⟨edited_shaped, root, -⟩ := edit_effect shaped word done
    exact ⟨edited_shaped, root⟩
  · intro x edited done
    obtain ⟨-, root, meets, effect⟩ := edit_effect shaped word done
    obtain ⟨y, stands⟩ := Option.ne_none_iff_exists'.mp meets
    exact ⟨⟨y, by rw [stands]⟩, overwritten root effect⟩
  · rintro x edited (done | done)
    all_goals
      obtain ⟨-, root, meets, effect⟩ := edit_effect shaped word done
      exact ⟨congrArg Except.ok meets, overwritten root effect⟩
  · intro edited done p root
    obtain ⟨-, -, -, effect⟩ := edit_effect shaped word done
    rw [effect p root, Edit.effect_keepFrom]
    split <;> rfl
  · intro edited done p root
    obtain ⟨-, -, -, effect⟩ := edit_effect shaped word done
    rw [effect p root, Edit.effect_keepThrough]
    split <;> rfl
  · rintro root ⟨y, stands⟩
    have inside := (Radix.shiftRight_level_lt_iff height index).mp root
    have through {change : Edit α} (addsNone : change.AddsNone) :
        ∃ edited, node.edit r change (r.level height) index = .ok edited := by
      obtain ⟨edited, below⟩ := editBelow_of_stored shaped word addsNone (Except.ok.inj stands)
      exact ⟨edited, (edit_eq_ok_iff word).mpr ⟨inside, below⟩⟩
    exact ⟨fun _ => through trivial, through trivial, through trivial⟩

/-- A leaf with a gap before its element, and beside it a leaf with nothing in it: a cut goes through at the
element, and a push fills the other leaf from its last slot on. -/
theorem edit_on_any_tree_gapped :
    Shaped Radix.binary 1 (interior 0 [leaf 1 ['a'], leaf 0 []]) ∧
    (∃ edited, (interior 0 [leaf 1 ['a'], leaf 0 []]).edit Radix.binary .keepFrom 1 1 = .ok edited ∧
      Shaped Radix.binary 1 edited ∧ edited.lookup Radix.binary 1 1 = .ok (some 'a')) ∧
    ∃ edited, (interior 0 [leaf 1 ['a'], leaf 0 []]).edit Radix.binary (.pushBack 'b') 1 3 = .ok edited ∧
      edited.lookup Radix.binary 1 3 = .ok (some 'b') ∧ edited.lookup Radix.binary 1 1 = .ok (some 'a') := by
  have leaves : ∀ child ∈ [leaf 1 ['a'], leaf 0 []], Shaped Radix.binary 0 child := by
    intro child member
    simp only [List.mem_cons, List.not_mem_nil, or_false] at member
    rcases member with rfl | rfl <;> exact .leaf (by decide)
  have shaped : Shaped Radix.binary (0 + Radix.binary.bits) (interior 0 [leaf 1 ['a'], leaf 0 []]) :=
    .interior (by decide) leaves
  have stands : (interior 0 [leaf 1 ['a'], leaf 0 []]).lookup Radix.binary 1 1 = .ok (some 'a') := by cbv
  have pushed : (interior 0 [leaf 1 ['a'], leaf 0 []]).edit Radix.binary (.pushBack 'b') 1 3 =
      .ok (.interior 0 [leaf 1 ['a'], leaf 1 ['b']]) := by cbv
  obtain ⟨-, keeps, -, -, cut, -, through⟩ := edit_on_any_tree (by decide) (by decide) shaped 1
  obtain ⟨edited, done⟩ := (through (by decide) ⟨'a', stands⟩).2.1
  obtain ⟨-, -, -, push, -⟩ := edit_on_any_tree (by decide) (by decide) shaped 3
  obtain ⟨-, here, others⟩ := push 'b' _ (.inl pushed)
  exact ⟨shaped, ⟨edited, done, (keeps _ _ done).1, (cut edited done 1 (by decide)).trans stands⟩,
    _, pushed, here, (others 1 (by decide) (by decide)).trans stands⟩

end DigitTrie.Node
