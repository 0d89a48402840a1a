import DigitTrie.Proofs.FilledReading

/-! What it means for a tree to be in order, said without a checker: it has the right height, no node is
empty or too long, and it stores an element at each index of a window and nowhere else. Such a tree is
the tree of its window, slot by slot. -/
namespace DigitTrie.Node

variable {r : Radix} {α : Type} {f : Nat → α} {node : Node α} {children : List (Node α)}
  {height level base first n : Nat} {e : Nat × α}

/-- Leaves stand at level zero, each step up adds one digit, and no node uses a slot past its last
digit. -/
inductive Shaped (r : Radix) : Nat → Node α → Prop where
  | leaf {start : Nat} {slots : List α} : start + slots.length ≤ r.size → Shaped r 0 (.leaf start slots)
  | interior {start level : Nat} {children : List (Node α)} : start + children.length ≤ r.size →
      (∀ child ∈ children, Shaped r level child) → Shaped r (level + r.bits) (.interior start children)

inductive Occupied : Node α → Prop where
  | leaf {start : Nat} {slots : List α} : slots ≠ [] → Occupied (.leaf start slots)
  | interior {start : Nat} {children : List (Node α)} : children ≠ [] →
      (∀ child ∈ children, Occupied child) → Occupied (.interior start children)

theorem filled_shaped (fits : r.Fits height first last) :
    Shaped r (r.level height) (filled r f height first last) := by
  induction height generalizing first last with
  | zero =>
    have count := fits.digit_add_count_le
    simp only [Radix.span_zero, Nat.div_one] at count
    rw [filled_zero, Radix.level_zero]
    exact .leaf (by simpa using count)
  | succ height ih =>
    rw [filled_succ, Radix.level_succ]
    refine .interior (by rw [length_row]; exact fits.digit_add_count_le) ?_
    intro child member
    obtain ⟨c, inside, rfl⟩ := List.mem_map.mp member
    rw [List.mem_range'_1] at inside
    exact ih (Radix.Fits.child fits.ordered inside.1 (by omega))

theorem filled_occupied (ordered : first ≤ last) : Occupied (filled r f height first last) := by
  induction height generalizing first last with
  | zero =>
    refine .leaf (List.ne_nil_of_length_pos ?_)
    rw [List.length_map, List.length_range']; omega
  | succ height ih =>
    have low := Nat.div_le_div_right (c := r.span (height + 1)) ordered
    refine .interior (List.ne_nil_of_length_pos ?_) ?_
    · rw [List.length_map, List.length_range']; omega
    · intro child member
      obtain ⟨c, inside, rfl⟩ := List.mem_map.mp member
      rw [List.mem_range'_1] at inside
      exact ih (Radix.Fits.child ordered inside.1 (by omega)).ordered

/-! Where the entries of a tree lie. -/

theorem entries_ne_nil (occupied : Occupied node) : node.entries r level base ≠ [] := by
  induction occupied generalizing level base with
  | leaf used => simpa [entries] using used
  | @interior start children used _ ih =>
    cases children with
    | nil => exact absurd rfl used
    | cons child rest =>
      rw [entries, forestEntries]
      exact List.append_ne_nil_of_left_ne_nil (ih child List.mem_cons_self) _

theorem forestEntries_bounds
    (each : ∀ child ∈ children, ∀ base, ∀ e ∈ child.entries r level base,
      base ≤ e.1 ∧ e.1 < base + 2 ^ (level + r.bits))
    (member : e ∈ forestEntries r children (level + r.bits) base) :
    base ≤ e.1 ∧ e.1 < base + children.length * 2 ^ (level + r.bits) := by
  induction children generalizing base with
  | nil => simp [forestEntries] at member
  | cons child rest ih =>
    rw [forestEntries, Nat.add_sub_cancel, Nat.one_shiftLeft] at member
    have positive := Nat.two_pow_pos (level + r.bits)
    rw [List.length_cons, Nat.succ_mul]
    rcases List.mem_append.mp member with inside | behind
    · have bounds := each child List.mem_cons_self base e inside
      omega
    · have bounds := ih (fun c member => each c (List.mem_cons_of_mem _ member)) behind
      omega

theorem entries_bounds (shaped : Shaped r level node) (member : e ∈ node.entries r level base) :
    base ≤ e.1 ∧ e.1 < base + 2 ^ (level + r.bits) := by
  induction shaped generalizing base e with
  | @leaf start slots short =>
    rw [entries, List.mem_mapIdx] at member
    obtain ⟨i, used, rfl⟩ := member
    rw [Nat.zero_add, ← Radix.size_eq]
    omega
  | @interior start level children short _ ih =>
    rw [entries, Nat.shiftLeft_eq] at member
    have bounds := forestEntries_bounds (fun child inside _ _ => ih child inside) member
    have stop := Nat.mul_le_mul_right (2 ^ (level + r.bits)) short
    rw [Nat.add_mul] at stop
    rw [Nat.pow_add 2 (level + r.bits), Nat.mul_comm (2 ^ (level + r.bits)), ← Radix.size_eq]
    omega

theorem entries_sorted (shaped : Shaped r level node) :
    (node.entries r level base).Pairwise fun a b => a.1 < b.1 := by
  induction shaped generalizing base with
  | @leaf start slots short =>
    rw [entries, List.pairwise_iff_getElem]
    intro i j _ _ less
    simpa using less
  | @interior start level children short below ih =>
    rw [entries]
    generalize base + start <<< (level + r.bits) = base
    clear short
    induction children generalizing base with
    | nil => exact .nil
    | cons child rest forest =>
      have later : ∀ c ∈ rest, Shaped r level c := fun c member => below c (List.mem_cons_of_mem _ member)
      rw [forestEntries, Nat.add_sub_cancel, List.pairwise_append]
      refine ⟨ih child List.mem_cons_self, forest later
        (fun c member => ih c (List.mem_cons_of_mem _ member)) _, ?_⟩
      intro a before b after
      have left := entries_bounds (below child List.mem_cons_self) before
      have right := forestEntries_bounds (fun c member _ _ => entries_bounds (later c member)) after
      omega

/-! A tree in order is the tree of its window. -/

theorem append_eq_range' {xs ys : List (Nat × α)}
    (eq : xs ++ ys = (List.range' first n).map fun p => (p, f p)) :
    xs = (List.range' first xs.length).map (fun p => (p, f p)) ∧
      ys = (List.range' (first + xs.length) ys.length).map (fun p => (p, f p)) ∧
      n = xs.length + ys.length := by
  have count : n = xs.length + ys.length := by
    simpa using (congrArg List.length eq).symm
  rw [count, ← List.range'_append_1, List.map_append] at eq
  obtain ⟨left, right⟩ := List.append_inj eq (by simp)
  exact ⟨left, right, count⟩

theorem window_bounds (shaped : Shaped r (r.level height) node) (positive : 0 < n)
    (eq : node.entries r (r.level height) base = (List.range' first n).map fun p => (p, f p)) :
    base ≤ first ∧ first + n ≤ base + r.span (height + 1) := by
  have span : r.span (height + 1) = 2 ^ (r.level height + r.bits) := by
    rw [Radix.span, Radix.level_succ]
  have member (p : Nat) (low : first ≤ p) (high : p < first + n) :
      (p, f p) ∈ node.entries r (r.level height) base := by
    rw [eq]
    exact List.mem_map_of_mem (List.mem_range'_1.mpr ⟨low, high⟩)
  have left := entries_bounds shaped (member first (Nat.le_refl _) (by omega))
  have right := entries_bounds shaped (member (first + n - 1) (by omega) (by omega))
  omega

theorem shaped_zero (shaped : Shaped r (r.level 0) node) :
    ∃ start slots, node = .leaf start slots ∧ start + slots.length ≤ r.size := by
  have bits := r.bits_pos
  generalize same : r.level 0 = level at shaped
  rw [Radix.level_zero] at same
  cases shaped with
  | leaf short => exact ⟨_, _, rfl, short⟩
  | interior => omega

theorem shaped_succ (shaped : Shaped r (r.level (height + 1)) node) :
    ∃ start children, node = .interior start children ∧ start + children.length ≤ r.size ∧
      ∀ child ∈ children, Shaped r (r.level height) child := by
  generalize same : r.level (height + 1) = level at shaped
  cases shaped with
  | leaf => exact absurd same Radix.level_succ_ne_zero
  | @interior start level children short below =>
    have lower : r.level height = level := by rw [Radix.level_succ] at same; omega
    exact ⟨start, children, rfl, short, lower ▸ below⟩

/-- Neighbouring nodes that share a window are its row, if each node alone is the tree of its part. -/
theorem eq_row_of_entries (used : children ≠ [])
    (shaped : ∀ child ∈ children, Shaped r (r.level height) child)
    (occupied : ∀ child ∈ children, Occupied child)
    (each : ∀ child ∈ children, ∀ slot first n, 0 < n →
      child.entries r (r.level height) (slot * r.span (height + 1)) =
        (List.range' first n).map (fun p => (p, f p)) →
      child = filled r f height first (first + n - 1))
    (slot : Nat) (positive : 0 < n)
    (eq : forestEntries r children (r.level (height + 1)) (slot * r.span (height + 1)) =
      (List.range' first n).map fun p => (p, f p)) :
    first / r.span (height + 1) = slot ∧ children = row r f height first (first + n - 1) := by
  have room := r.span_pos (height + 1)
  induction children generalizing slot first n with
  | nil => exact absurd rfl used
  | cons child rest ih =>
    rw [forestEntries_cons] at eq
    obtain ⟨head, tail, count⟩ := append_eq_range' eq
    have stores : 0 < (child.entries r (r.level height) (slot * r.span (height + 1))).length :=
      List.length_pos_iff.mpr (entries_ne_nil (occupied child List.mem_cons_self))
    have bounds := window_bounds (shaped child List.mem_cons_self) stores head
    have own := each child List.mem_cons_self slot first _ stores head
    have here : first / r.span (height + 1) = slot := by rw [Radix.slot_eq_iff]; omega
    refine ⟨here, ?_⟩
    generalize (child.entries r (r.level height) (slot * r.span (height + 1))).length = n₁ at *
    cases rest with
    | nil =>
      have alone : n = n₁ := by simpa [forestEntries] using count
      rw [row_single (here.trans (Radix.slot_eq_iff.mpr (by omega)).symm), own, alone]
    | cons next rest =>
      rw [← Nat.add_one_mul] at tail count
      have more : 0 < (forestEntries r (next :: rest) (r.level (height + 1))
          ((slot + 1) * r.span (height + 1))).length := by
        rw [forestEntries_cons, List.length_append]
        exact Nat.add_pos_left (List.length_pos_iff.mpr (entries_ne_nil (occupied next (by simp)))) _
      obtain ⟨another, others⟩ := ih (List.cons_ne_nil _ _)
        (fun c member => shaped c (List.mem_cons_of_mem _ member))
        (fun c member => occupied c (List.mem_cons_of_mem _ member))
        (fun c member => each c (List.mem_cons_of_mem _ member)) (slot + 1) more tail
      have edge := Radix.slot_eq_iff.mp another
      rw [Nat.succ_mul] at edge
      have joint : first + n₁ = (first / r.span (height + 1) + 1) * r.span (height + 1) := by
        rw [here, Nat.succ_mul]; omega
      have longer : first / r.span (height + 1) < (first + n - 1) / r.span (height + 1) := by
        rw [← Nat.succ_le_iff, Radix.le_slot_iff, ← joint]; omega
      rw [row_cons longer, ← joint, others, own]
      congr 2
      · rw [Nat.succ_mul] at joint; omega
      · omega

/-- A tree in order is the tree of its window. -/
theorem eq_filled (shaped : Shaped r (r.level height) node) (occupied : Occupied node)
    (slot : Nat) (positive : 0 < n)
    (eq : node.entries r (r.level height) (slot * r.span (height + 1)) =
      (List.range' first n).map fun p => (p, f p)) :
    node = filled r f height first (first + n - 1) := by
  have bounds := window_bounds shaped positive eq
  have whole : first + n - 1 + 1 - first = n := by omega
  induction height generalizing node slot first n with
  | zero =>
    obtain ⟨start, slots, rfl, short⟩ := shaped_zero shaped
    have elements := congrArg (List.map Prod.snd) eq
    rw [map_snd_entries, toList, List.map_map] at elements
    have starts : slot * r.span 1 + start = first := by
      rw [entries] at eq
      have low : (first, f first) ∈ slots.mapIdx fun i x => (slot * r.span 1 + (start + i), x) := by
        rw [eq]
        exact List.mem_map_of_mem (List.mem_range'_1.mpr ⟨Nat.le_refl _, by omega⟩)
      obtain ⟨i, used, here⟩ := List.mem_mapIdx.mp low
      have high : (slot * r.span 1 + (start + 0), slots[0]) ∈
          (List.range' first n).map fun p => (p, f p) := by
        rw [← eq]
        exact List.mem_mapIdx.mpr ⟨0, by omega, rfl⟩
      obtain ⟨p, inside, there⟩ := List.mem_map.mp high
      rw [List.mem_range'_1] at inside
      simp only [Prod.mk.injEq] at here there
      omega
    rw [Radix.span_succ, Radix.span_zero, Nat.one_mul] at starts
    have digit : first % r.size = start := by
      rw [← starts, Nat.mul_comm, Nat.mul_add_mod, Nat.mod_eq_of_lt]
      have := congrArg List.length elements
      simp at this
      omega
    rw [filled_zero, digit, whole, elements]
    rfl
  | succ height ih =>
    obtain ⟨start, children, rfl, short, below⟩ := shaped_succ shaped
    cases occupied with
    | interior used occupied =>
      have base : slot * r.span (height + 1 + 1) + start * r.span (height + 1) =
          (slot * r.size + start) * r.span (height + 1) := by
        rw [Nat.add_mul, Nat.mul_assoc, Nat.mul_comm r.size, ← Radix.span_succ]
      rw [entries_interior, base] at eq
      obtain ⟨here, children⟩ := eq_row_of_entries used below occupied
        (fun child member slot first n positive eq => ih (below child member) (occupied child member)
          slot positive eq (window_bounds (below child member) positive eq) (by omega))
        _ positive eq
      have digit : first / r.span (height + 1) % r.size = start := by
        have := List.length_pos_iff.mpr used
        rw [here, Nat.mul_comm, Nat.mul_add_mod, Nat.mod_eq_of_lt (by omega)]
      rw [filled_succ, digit, ← children]

end DigitTrie.Node
