import DigitTrie.Proofs.FilledEdits

/-! What an edit does, said without a walk. It puts something at one place, and of the rest it keeps all, or
all on one side. This is `Edit.effect`; it is read over physical indices for a whole tree, and over digits for
the slots of one node, and the two readings agree: below one node an index is before another exactly if its
digit is, unless both go through the same slot. -/
namespace DigitTrie

variable {r : Radix} {α β : Type} {change : Edit α} {start digit place p height : Nat}
  {children : List (Node α)} {slots : List α} {fresh child : Node α} {opened : Opened α}

namespace Edit

/-- What is left of something that stands at `p` when the edit is made at another place. -/
def kept (change : Edit α) (place p : Nat) (old : Option β) : Option β :=
  match change with
  | .replace _ | .pushBack _ | .pushFront _ => old
  | .keepFrom => if place ≤ p then old else none
  | .keepThrough => if p ≤ place then old else none

def put (change : Edit α) (old : Option α) : Option α :=
  match change with
  | .replace x | .pushBack x | .pushFront x => some x
  | .keepFrom | .keepThrough => old

/-- What an edit has to find at its place. -/
def Meets (change : Edit α) (old : Option α) : Prop :=
  match change with
  | .replace _ | .keepThrough => old ≠ none
  | .pushBack _ | .pushFront _ => old = none
  | .keepFrom => True

/-- What an edit makes of everything that is stored, place by place. -/
def effect (change : Edit α) (place : Nat) (stored : Nat → Option α) (p : Nat) : Option α :=
  if p = place then change.put (stored place) else change.kept place p (stored p)

theorem effect_keepFrom (stored : Nat → Option α) :
    (keepFrom : Edit α).effect place stored p = if place ≤ p then stored p else none := by
  by_cases here : p = place <;> simp [effect, put, kept, here]

theorem effect_keepThrough (stored : Nat → Option α) :
    (keepThrough : Edit α).effect place stored p = if p ≤ place then stored p else none := by
  by_cases here : p = place <;> simp [effect, put, kept, here]

theorem kept_congr {a b c d : Nat} (le : a ≤ b ↔ c ≤ d) (ge : b ≤ a ↔ d ≤ c) (old : Option β) :
    change.kept a b old = change.kept c d old := by
  cases change <;> simp only [kept, le, ge]

theorem of_kept_eq_some {y : β} {old : Option β} (left : change.kept place p old = some y) : old = some y := by
  cases change with
  | replace | pushBack | pushFront => exact left
  | keepFrom | keepThrough =>
    simp only [kept] at left
    split at left
    · exact left
    · cases left

theorem kept_bind {γ : Type} (old : Option β) (read : β → Option γ) :
    (change.kept place p old).bind read = change.kept place p (old.bind read) := by
  cases change with
  | replace | pushBack | pushFront => rfl
  | keepFrom | keepThrough =>
    simp only [kept]
    split <;> rfl

theorem kept_digit (change : Edit α) (same : p / r.span (height + 1) = place / r.span (height + 1))
    (apart : p / r.span height ≠ place / r.span height) (old : Option β) :
    change.kept (place / r.span height % r.size) (p / r.span height % r.size) old =
      change.kept place p old := by
  have le := Radix.digit_le_iff same apart
  have ge := Radix.digit_le_iff same.symm apart.symm
  exact kept_congr ge le old

/-- Opening a node for the path through `digit`: the path goes on in the child that stands there, or in a
fresh one if there is none, and the other children are kept or cut off. -/
structure Opens (r : Radix) (change : Edit α) (start : Nat) (children : List (Node α)) (digit : Nat)
    (fresh child : Node α) (opened : Opened α) : Prop where
  place : opened.start + opened.slot = digit
  room : opened.start + opened.children.length ≤ r.size
  path : Slots.at? children start digit = some child ∨
    Slots.at? children start digit = none ∧ child = fresh
  others : ∀ d, d ≠ digit → Slots.at? opened.children opened.start d =
    change.kept digit d (Slots.at? children start d)

/-- A node without slots in use can be given another start. -/
theorem restarted {slots : List β} (room : start + slots.length ≤ r.size) (inside : digit < r.size) :
    (if slots.isEmpty then digit else start) + slots.length ≤ r.size ∧
      ∀ d, Slots.at? slots (if slots.isEmpty then digit else start) d = Slots.at? slots start d := by
  cases slots with
  | nil => simp [Nat.le_of_lt inside]
  | cons y rest => exact ⟨room, fun _ => rfl⟩

/-- A push to the back opens a node at its last child, or it puts a fresh child behind that. -/
theorem openNode_opens_pushBack {x : α} (room : start + children.length ≤ r.size) (inside : digit < r.size)
    (opens : (pushBack x).openNode r start children digit (r.level (height + 1)) = .ok opened)
    (found : opened.children[opened.slot]? = some child) :
    (pushBack x).Opens r start children digit (Node.empty (r.level height)) child opened := by
  simp only [openNode, bind_eq_ok_iff, Word.sub_eq_ok_iff, ensure_eq_ok_iff] at opens
  obtain ⟨_, ⟨le, rfl⟩, _, near, opens⟩ := opens
  -- No look-up can tell that a node without children now starts at the digit.
  obtain ⟨room, same⟩ := restarted room inside
  generalize (if children.isEmpty then digit else start) = start at *
  split at opens
  · rename_i last
    simp only [Node.emptyBelow_level, bind_eq_ok_iff, Slots.pushBack_eq_ok_iff] at opens
    obtain ⟨_, fresh, _, ⟨-, rfl⟩, made⟩ := opens
    cases fresh
    cases made
    have place : digit = start + children.length := by omega
    refine ⟨Nat.add_sub_of_le le, ?_, .inr ⟨?_, ?_⟩, fun d other => ?_⟩
    · simp only [List.length_append, List.length_singleton]
      omega
    · rw [← same, place, Slots.at?_add, List.getElem?_eq_none (Nat.le_refl _)]
    · rw [last, List.getElem?_concat_length] at found
      exact (Option.some.inj found).symm
    · rw [Slots.at?_append, if_neg (place ▸ other), same]
      rfl
  · cases opens
    exact ⟨Nat.add_sub_of_le le, room, .inl (same _ ▸ Slots.at?_eq_some_iff.mpr ⟨le, found⟩),
      fun d _ => same d⟩

/-- A push to the front opens a node at the child of its digit, or it puts a fresh child before all others. -/
theorem openNode_opens_pushFront {x : α} (room : start + children.length ≤ r.size) (inside : digit < r.size)
    (opens : (pushFront x).openNode r start children digit (r.level (height + 1)) = .ok opened)
    (found : opened.children[opened.slot]? = some child) :
    (pushFront x).Opens r start children digit (Node.empty (r.level height)) child opened := by
  rw [openNode] at opens
  split at opens
  · rename_i vacant
    cases List.isEmpty_iff.mp vacant
    simp only [Node.emptyBelow_level, bind_eq_ok_iff] at opens
    obtain ⟨_, fresh, made⟩ := opens
    cases fresh
    cases made
    refine ⟨rfl, inside, .inr ⟨Slots.at?_nil, (Option.some.inj found).symm⟩, fun d other => ?_⟩
    rw [Slots.at?_cons, if_neg other, Slots.at?_nil, Slots.at?_nil]
    rfl
  · split at opens
    · rename_i next
      simp only [Node.emptyBelow_level, bind_eq_ok_iff, Slots.pushFront_eq_ok_iff] at opens
      obtain ⟨_, fresh, _, ⟨-, rfl⟩, made⟩ := opens
      cases fresh
      cases made
      refine ⟨rfl, ?_, .inr ⟨if_pos (by omega), (Option.some.inj found).symm⟩, fun d other => ?_⟩
      · simp only [List.length_cons]
        omega
      · rw [Slots.at?_cons, if_neg other, next]
        rfl
    · simp only [bind_eq_ok_iff, Word.sub_eq_ok_iff] at opens
      obtain ⟨_, ⟨le, rfl⟩, made⟩ := opens
      cases made
      exact ⟨Nat.add_sub_of_le le, room, .inl (Slots.at?_eq_some_iff.mpr ⟨le, found⟩), fun _ _ => rfl⟩

theorem openNode_opens (room : start + children.length ≤ r.size) (inside : digit < r.size)
    (opens : change.openNode r start children digit (r.level (height + 1)) = .ok opened)
    (found : opened.children[opened.slot]? = some child) :
    change.Opens r start children digit (Node.empty (r.level height)) child opened := by
  cases change with
  | replace x =>
    simp only [openNode, bind_eq_ok_iff, Word.sub_eq_ok_iff] at opens
    obtain ⟨_, ⟨le, rfl⟩, same⟩ := opens
    cases same
    exact ⟨Nat.add_sub_of_le le, room, .inl (Slots.at?_eq_some_iff.mpr ⟨le, found⟩), fun _ _ => rfl⟩
  | keepFrom =>
    simp only [openNode, bind_eq_ok_iff, Word.sub_eq_ok_iff, Slots.dropFirst_eq_ok_iff] at opens
    obtain ⟨_, ⟨le, rfl⟩, _, ⟨used, rfl⟩, same⟩ := opens
    cases same
    rw [List.getElem?_drop, Nat.add_zero] at found
    refine ⟨rfl, ?_, .inl (Slots.at?_eq_some_iff.mpr ⟨le, found⟩), fun d _ => Slots.at?_drop le⟩
    simp only [List.length_drop]
    omega
  | keepThrough =>
    simp only [openNode, bind_eq_ok_iff, Word.sub_eq_ok_iff, Slots.keepFirst_eq_ok_iff] at opens
    obtain ⟨_, ⟨le, rfl⟩, _, ⟨used, rfl⟩, same⟩ := opens
    cases same
    rw [List.getElem?_take_of_lt (Nat.lt_succ_self _)] at found
    refine ⟨Nat.add_sub_of_le le, ?_, .inl (Slots.at?_eq_some_iff.mpr ⟨le, found⟩),
      fun d _ => Slots.at?_take le⟩
    simp only [List.length_take]
    omega
  | pushBack x => exact openNode_opens_pushBack room inside opens found
  | pushFront x => exact openNode_opens_pushFront room inside opens found

theorem Opens.origin {other : Node α} (opens : change.Opens r start children digit fresh child opened)
    (found : opened.children[opened.slot]? = some child) (member : other ∈ opened.children) :
    other ∈ children ∨ other = fresh := by
  obtain ⟨i, here⟩ := List.mem_iff_getElem?.mp member
  have at_digit {d : Nat} {c : Node α} (stands : Slots.at? children start d = some c) : c ∈ children :=
    List.mem_of_getElem? (Slots.at?_eq_some_iff.mp stands).2
  by_cases path : opened.start + i = digit
  · have slot : i = opened.slot := Nat.add_left_cancel (path.trans opens.place.symm)
    rw [slot, found] at here
    cases here
    exact opens.path.imp at_digit And.right
  · have stands := opens.others _ path
    rw [Slots.at?_add, here] at stands
    exact .inl (at_digit (of_kept_eq_some stands.symm))

/-- An edit does to the slots of a leaf, digit by digit, what it says. -/
theorem applyToLeaf_effect {result : Node α} (room : start + slots.length ≤ r.size)
    (inside : digit < r.size) (applied : change.applyToLeaf r start slots digit = .ok result) :
    ∃ first kept, result = .leaf first kept ∧ first + kept.length ≤ r.size ∧
      change.Meets (Slots.at? slots start digit) ∧
      ∀ d, Slots.at? kept first d = change.effect digit (Slots.at? slots start) d := by
  cases change with
  | replace x =>
    simp only [applyToLeaf, bind_eq_ok_iff, Word.sub_eq_ok_iff, Slots.set_eq_ok_iff] at applied
    obtain ⟨_, ⟨le, rfl⟩, _, ⟨used, rfl⟩, made⟩ := applied
    cases made
    refine ⟨_, _, rfl, by simpa using room, ?_, fun d => ?_⟩
    · simp [Meets, Slots.at?_of_le le, used]
    · rw [Slots.at?_set used, Nat.add_sub_of_le le]
      rfl
  | keepFrom =>
    simp only [applyToLeaf, bind_eq_ok_iff, Word.sub_eq_ok_iff, Slots.dropFirst_eq_ok_iff] at applied
    obtain ⟨_, ⟨le, rfl⟩, _, ⟨used, rfl⟩, made⟩ := applied
    cases made
    refine ⟨_, _, rfl, ?_, trivial, fun d => ?_⟩
    · simp only [List.length_drop]
      omega
    · rw [Slots.at?_drop le, effect_keepFrom]
  | keepThrough =>
    simp only [applyToLeaf, bind_eq_ok_iff, Word.sub_eq_ok_iff, Slots.keepFirst_eq_ok_iff] at applied
    obtain ⟨_, ⟨le, rfl⟩, _, ⟨used, rfl⟩, made⟩ := applied
    cases made
    refine ⟨_, _, rfl, ?_, ?_, fun d => ?_⟩
    · simp only [List.length_take]
      omega
    · rw [Meets, Slots.at?_of_le le, List.getElem?_eq_getElem used]
      exact Option.some_ne_none _
    · rw [Slots.at?_take le, effect_keepThrough]
  | pushBack x =>
    simp only [applyToLeaf, bind_eq_ok_iff, Word.add_eq_ok_iff, ensure_eq_ok_iff,
      Slots.pushBack_eq_ok_iff] at applied
    obtain ⟨_, ⟨-, rfl⟩, _, last, _, ⟨-, rfl⟩, made⟩ := applied
    obtain ⟨room, same⟩ := restarted room inside
    generalize (if slots.isEmpty then digit else start) = start at *
    cases made
    have place : digit = start + slots.length := last
    refine ⟨_, _, rfl, ?_, ?_, fun d => ?_⟩
    · simp only [List.length_append, List.length_singleton]
      omega
    · rw [Meets, ← same, place, Slots.at?_add, List.getElem?_eq_none (Nat.le_refl _)]
    · rw [Slots.at?_append, ← place, same]
      rfl
  | pushFront x =>
    simp only [applyToLeaf, bind_eq_ok_iff, ensure_eq_ok_iff, Slots.pushFront_eq_ok_iff] at applied
    obtain ⟨_, next, _, ⟨-, rfl⟩, made⟩ := applied
    cases made
    obtain rfl | next : slots = [] ∨ digit + 1 = start := next.imp_left List.isEmpty_iff.mp
    · refine ⟨_, _, rfl, inside, Slots.at?_nil, fun d => ?_⟩
      simp [Slots.at?_cons, effect, put, kept]
    · refine ⟨_, _, rfl, ?_, if_pos (by omega), fun d => ?_⟩
      · simp only [List.length_cons]
        omega
      · rw [Slots.at?_cons, next]
        rfl

def AddsNone : Edit α → Prop
  | .replace _ | .keepFrom | .keepThrough => True
  | .pushBack _ | .pushFront _ => False

theorem openNode_of_stands {level : Nat} (change : Edit α)
    (stands : Slots.at? children start digit = some child) :
    ∃ opened, change.openNode r start children digit level = .ok opened ∧
      opened.children[opened.slot]? = some child := by
  obtain ⟨le, found⟩ := Slots.at?_eq_some_iff.mp stands
  obtain ⟨used, -⟩ := List.getElem?_eq_some_iff.mp found
  have sub := Word.sub_of_le le
  cases change with
  | replace x => exact ⟨⟨start, children, digit - start⟩, bind_eq_ok_iff.mpr ⟨_, sub, rfl⟩, found⟩
  | pushBack x => exact ⟨_, Node.openNode_pushBack le used, found⟩
  | pushFront x => exact ⟨_, Node.openNode_pushFront le (by omega), found⟩
  | keepFrom =>
    have drop := Slots.dropFirst_eq_ok_iff.mpr ⟨Nat.le_of_lt used, rfl⟩
    refine ⟨⟨digit, children.drop (digit - start), 0⟩, ?_, by simpa using found⟩
    exact bind_eq_ok_iff.mpr ⟨_, sub, bind_eq_ok_iff.mpr ⟨_, drop, rfl⟩⟩
  | keepThrough =>
    have keep := Slots.keepFirst_eq_ok_iff.mpr ⟨used, rfl⟩
    refine ⟨⟨start, children.take (digit - start + 1), digit - start⟩, ?_, ?_⟩
    · exact bind_eq_ok_iff.mpr ⟨_, sub, bind_eq_ok_iff.mpr ⟨_, keep, rfl⟩⟩
    · rwa [List.getElem?_take_of_lt (Nat.lt_succ_self _)]

theorem applyToLeaf_of_stands {x : α} (addsNone : change.AddsNone)
    (stands : Slots.at? slots start digit = some x) :
    ∃ result, change.applyToLeaf r start slots digit = .ok result := by
  obtain ⟨le, found⟩ := Slots.at?_eq_some_iff.mp stands
  obtain ⟨used, -⟩ := List.getElem?_eq_some_iff.mp found
  have sub := Word.sub_of_le le
  cases change with
  | replace y =>
    have set := Slots.set_eq_ok_iff (x := y).mpr ⟨used, rfl⟩
    exact ⟨_, bind_eq_ok_iff.mpr ⟨_, sub, bind_eq_ok_iff.mpr ⟨_, set, rfl⟩⟩⟩
  | keepFrom =>
    have drop := Slots.dropFirst_eq_ok_iff.mpr ⟨Nat.le_of_lt used, rfl⟩
    exact ⟨_, bind_eq_ok_iff.mpr ⟨_, sub, bind_eq_ok_iff.mpr ⟨_, drop, rfl⟩⟩⟩
  | keepThrough =>
    have keep := Slots.keepFirst_eq_ok_iff.mpr ⟨used, rfl⟩
    exact ⟨_, bind_eq_ok_iff.mpr ⟨_, sub, bind_eq_ok_iff.mpr ⟨_, keep, rfl⟩⟩⟩
  | pushBack | pushFront => exact addsNone.elim

end Edit

end DigitTrie
