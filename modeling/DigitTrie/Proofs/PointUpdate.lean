import DigitTrie.Proofs.InOrder
import DigitTrie.Proofs.Slicing

/-! Putting another element in the place of one. The tree keeps its nodes, each with its start and its number of
slots, and of all the slots in its leaves one has another element afterwards. On the elements this is what
putting an element in a list is, so updates go past each other and past cuts as they do in a list; and as no
update moves an element, the trees are the same too. -/
namespace DigitTrie

variable {r : Radix} {α : Type}

namespace Node

mutual

/-- The tree with its elements left out: the start and the number of slots of every node. -/
def outline : Node α → Node Unit
  | .leaf start slots => .leaf start (slots.map fun _ => ())
  | .interior start children => .interior start (outlineForest children)

def outlineForest : List (Node α) → List (Node Unit)
  | [] => []
  | child :: rest => child.outline :: outlineForest rest

end

theorem outlineForest_eq_map (children : List (Node α)) : outlineForest children = children.map outline := by
  induction children with
  | nil => rfl
  | cons child rest ih => rw [outlineForest, ih, List.map_cons]

theorem outline_filled {f : Nat → α} {height first last : Nat} :
    (filled r f height first last).outline = filled r (fun _ => ()) height first last := by
  induction height generalizing first last with
  | zero =>
    rw [filled_zero, filled_zero, outline, List.map_map, Function.comp_def]
  | succ height ih =>
    rw [filled_succ, filled_succ, outline, outlineForest_eq_map, row, row, List.map_map]
    congr 1
    apply List.map_congr_left
    intro c _
    exact ih

theorem entries_overwrite {f : Nat → α} {first n i : Nat} {x : α} :
    (List.range' first n).map (fun p => (p, overwrite f (first + i) x p)) =
      ((List.range' first n).map fun p => (p, f p)).set i (first + i, x) := by
  rw [overwrite_set]
  apply List.map_congr_left
  intro p _
  by_cases same : p = first + i
  · rw [same, overwrite_same, overwrite_same]
  · rw [overwrite_other same, overwrite_other same]

end Node

namespace Trie

variable {f : Nat → α} {x y : α} {t : Trie r α} {height offset length i j n : Nat}

def outline (t : Trie r α) : Option (Node Unit) := t.root.map Node.outline

/-- The slots of the leaves, each with its physical index and its element. -/
def entries (t : Trie r α) : List (Nat × α) :=
  match t.root with
  | none => []
  | some root => root.entries r t.level 0

theorem outline_filled : (filled f height offset length : Trie r α).outline =
    some (.filled r (fun _ => ()) height offset (offset + length - 1)) :=
  congrArg some Node.outline_filled

theorem entries_filled (admits : r.Admits height offset length) :
    (filled f height offset length : Trie r α).entries =
      (List.range' offset length).map fun p => (p, f p) := entries_root admits

/-- An update changes one slot, and nothing about the tree around it. -/
theorem set_changes_one (accepted : t.Accepted) (inside : i < t.length) (x : α) :
    ∃ u, t.set i x = .ok (.done, u) ∧ u.Accepted ∧ u.window = t.window ∧ u.outline = t.outline ∧
      u.entries = t.entries.set i (t.offset + i, x) := by
  rcases accepted.cases with rfl | ⟨f, height, offset, length, admits, rfl⟩
  · exact absurd inside (Nat.not_lt_zero i)
  · refine ⟨_, set_filled admits inside, filled_accepted admits, rfl, ?_, ?_⟩
    · rw [outline_filled, outline_filled]
    · rw [entries_filled admits, entries_filled admits]
      exact Node.entries_overwrite

/-- The slot at a physical index of the window holds the element that is read there. -/
theorem entry_of_index (accepted : t.Accepted) (inside : i < t.length) :
    ∃ y, t.get? i = .ok (some y) ∧ t.entries[i]? = some (t.offset + i, y) := by
  rcases accepted.cases with rfl | ⟨f, height, offset, length, admits, rfl⟩
  · exact absurd inside (Nat.not_lt_zero i)
  · rw [length_filled] at inside
    refine ⟨f (offset + i), get?_filled admits inside, ?_⟩
    rw [entries_filled admits, List.getElem?_map, List.getElem?_range' inside, Nat.one_mul]
    rfl

theorem Accepted.leads_set (accepted : t.Accepted) (inside : i < t.length) (x : α) :
    t.Leads [.set i x] t.place (t.toList.set i x) :=
  accepted.leads.set (by rwa [length_toList accepted]) x

theorem Accepted.leads_set_set (accepted : t.Accepted) (i_inside : i < t.length) (j_inside : j < t.length)
    (x y : α) : t.Leads [.set i x, .set j y] t.place ((t.toList.set i x).set j y) :=
  (accepted.leads_set i_inside x).set (by rwa [List.length_set, length_toList accepted]) y

theorem set_own (accepted : t.Accepted) (read : t.get? i = .ok (some y)) : t.set i y = .ok (.done, t) := by
  rw [get?_toList accepted, Except.ok.injEq] at read
  obtain ⟨inside, rfl⟩ := List.getElem?_eq_some_iff.mp read
  obtain ⟨u, done, u_holds⟩ := accepted.holds.set inside t.toList[i]
  rw [List.set_getElem_self] at u_holds
  rw [done, u_holds.eq accepted.holds]

theorem set_set_joins (accepted : t.Accepted) (inside : i < t.length) (x y : α) :
    t.Joins [.set i x, .set i y] [.set i y] := by
  have two := accepted.leads_set_set inside inside x y
  rw [List.set_set] at two
  exact two.joins (accepted.leads_set inside y)

theorem set_set_comm_joins (accepted : t.Accepted) (i_inside : i < t.length) (j_inside : j < t.length)
    (apart : i ≠ j) (x y : α) : t.Joins [.set i x, .set j y] [.set j y, .set i x] := by
  have one := accepted.leads_set_set i_inside j_inside x y
  rw [List.set_comm _ _ apart] at one
  exact one.joins (accepted.leads_set_set j_inside i_inside y x)

/-- An update before a cut at the front is one after it, unless its element is cut off. -/
theorem set_drop_joins (accepted : t.Accepted) (inside : i < t.length) (n : Nat) (x : α) :
    (n ≤ i → t.Joins [.set i x, .drop n] [.drop n, .set (i - n) x]) ∧
      (i < n → t.Joins [.set i x, .drop n] [.drop n]) := by
  have first := (accepted.leads_set inside x).drop n
  rw [List.drop_set] at first
  constructor
  · intro kept
    rw [if_neg (Nat.not_lt.mpr kept)] at first
    refine first.joins ((accepted.leads.drop n).set ?_ x)
    rw [List.length_drop, length_toList accepted]
    exact Nat.sub_lt_sub_right kept inside
  · intro cut
    rw [if_pos cut] at first
    exact first.joins (accepted.leads.drop n)

theorem set_take_joins (accepted : t.Accepted) (inside : i < t.length) (n : Nat) (x : α) :
    (i < n → t.Joins [.set i x, .take n] [.take n, .set i x]) ∧
      (n ≤ i → t.Joins [.set i x, .take n] [.take n]) := by
  have first := (accepted.leads_set inside x).take n
  constructor
  · intro kept
    rw [List.take_set] at first
    refine first.joins ((accepted.leads.take n).set ?_ x)
    rw [List.length_take, length_toList accepted]
    exact Nat.lt_min.mpr ⟨kept, inside⟩
  · intro cut
    rw [List.take_set_of_le cut] at first
    exact first.joins (accepted.leads.take n)

/-- An update changes the slot at one physical index and neither a node nor a number of the trie. Its index reads
the new element and all other ones what they read before; putting an element where it is already changes
nothing; of two updates at one index the later one stands, and at two indices they commute; an update commutes
with a cut that keeps its index, and is lost in one that does not. An index that the trie does not have is
refused with the length, and the trie stays as it is. -/
theorem set_is_lens (accepted : t.Accepted) :
    (∀ i x, i < t.length → ∃ u, t.set i x = .ok (.done, u) ∧ t.update i x = .ok u ∧ u.Accepted ∧
      u.window = t.window ∧ u.outline = t.outline ∧ u.entries = t.entries.set i (t.offset + i, x) ∧
      u.get? i = .ok (some x) ∧ ∀ j, j ≠ i → u.get? j = t.get? j) ∧
    (∀ i, i < t.length → ∃ y, t.get? i = .ok (some y) ∧ t.entries[i]? = some (t.offset + i, y) ∧
      t.set i y = .ok (.done, t)) ∧
    (∀ i x y, i < t.length → t.Joins [.set i x, .set i y] [.set i y]) ∧
    (∀ i j x y, i < t.length → j < t.length → i ≠ j →
      t.Joins [.set i x, .set j y] [.set j y, .set i x]) ∧
    (∀ i n x, i < t.length →
      (n ≤ i → t.Joins [.set i x, .drop n] [.drop n, .set (i - n) x]) ∧
      (i < n → t.Joins [.set i x, .drop n] [.drop n])) ∧
    (∀ i n x, i < t.length →
      (i < n → t.Joins [.set i x, .take n] [.take n, .set i x]) ∧
      (n ≤ i → t.Joins [.set i x, .take n] [.take n])) ∧
    (∀ i x, t.length ≤ i → t.set i x = .ok (.refused i t.length, t) ∧
      t.update i x = .error (.indexOutOfRange i t.length) ∧
      (Op.set i x).perform t = .ok (.refused i t.length, t)) := by
  refine ⟨fun i x inside => ?_, fun i inside => ?_, fun i x y inside => set_set_joins accepted inside x y,
    fun i j x y i_inside j_inside apart => set_set_comm_joins accepted i_inside j_inside apart x y,
    fun i n x inside => set_drop_joins accepted inside n x,
    fun i n x inside => set_take_joins accepted inside n x,
    fun i x short => ⟨set_refused short, update_refused short, set_refused short⟩⟩
  · obtain ⟨u, done, u_accepted, window, outline, entries⟩ := set_changes_one accepted inside x
    obtain ⟨_, again, -, elements⟩ := set_toList accepted inside x
    cases done.symm.trans again
    refine ⟨u, done, update_eq_ok_iff.mpr done, u_accepted, window, outline, entries, ?_, fun j other => ?_⟩
    · rw [get?_toList u_accepted, elements, List.getElem?_set_self (by rwa [length_toList accepted])]
    · rw [get?_toList u_accepted, get?_toList accepted, elements, List.getElem?_set_ne other.symm]
  · obtain ⟨y, read, entry⟩ := entry_of_index accepted inside
    exact ⟨y, read, entry, set_own accepted read⟩

/-- Four leaves, the outer two of them not full: an update in the second one, and two cuts next to it. -/
theorem set_is_lens_midst :
    (filled Nat.succ 2 1 6 : Trie Radix.binary Nat).Accepted ∧
      (filled Nat.succ 2 1 6 : Trie Radix.binary Nat).set 2 9 =
        .ok (.done, ⟨some (.interior 0 [.interior 0 [.leaf 1 [2], .leaf 0 [3, 9]],
          .interior 0 [.leaf 0 [5, 6], .leaf 0 [7]]]), 1, 6, 2⟩) ∧
      (filled Nat.succ 2 1 6 : Trie Radix.binary Nat).entries[2]? = some (3, 4) ∧
      (filled Nat.succ 2 1 6 : Trie Radix.binary Nat).Joins [.set 2 9, .drop 2] [.drop 2, .set 0 9] ∧
      (filled Nat.succ 2 1 6 : Trie Radix.binary Nat).Joins [.set 2 9, .take 2] [.take 2] := by
  have accepted : (filled Nat.succ 2 1 6 : Trie Radix.binary Nat).Accepted :=
    filled_accepted ⟨by decide, by decide, by decide⟩
  obtain ⟨-, own, -, -, drops, takes, -⟩ := set_is_lens accepted
  obtain ⟨y, read, entry, -⟩ := own 2 (by decide)
  have third : (filled Nat.succ 2 1 6 : Trie Radix.binary Nat).get? 2 = .ok (some 4) := by cbv
  cases read.symm.trans third
  exact ⟨accepted, by cbv, entry, (drops 2 2 9 (by decide)).1 (by decide),
    (takes 2 2 9 (by decide)).2 (by decide)⟩

end Trie

end DigitTrie
