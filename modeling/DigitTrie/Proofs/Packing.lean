import DigitTrie.Proofs.Acceptance

/-! Packing. Cutting a sequence into leaves gives the lowest row of the window from index zero on; grouping
one row under parents gives the next; and the first row of a single node is the tree of the window, at the
least height that has room for it. -/
namespace DigitTrie

variable {r : Radix} {α : Type} {f : Nat → α} {xs : List α} {height first last stop level n : Nat}

namespace Radix

theorem chunks_short (used : xs ≠ []) (short : xs.length ≤ r.size) : r.chunks xs = [xs] := by
  cases xs with
  | nil => exact absurd rfl used
  | cons x rest => rw [chunks, List.take_of_length_le short, List.drop_eq_nil_of_le short, chunks]

theorem chunks_append {left right : List α} (full : left.length = r.size) :
    r.chunks (left ++ right) = left :: r.chunks right := by
  cases left with
  | nil => exact absurd full.symm (Nat.ne_of_gt r.size_pos)
  | cons x rest =>
    rw [List.cons_append, chunks, ← List.cons_append, List.take_append_of_le_length (by omega),
      List.drop_append_of_le_length (by omega), List.take_of_length_le (by omega),
      List.drop_eq_nil_of_le (by omega), List.nil_append]

theorem slots_of_aligned (fits : r.Fits height first stop) (start : first % r.span (height + 1) = 0)
    (full : (stop + 1) % r.span (height + 1) = 0) :
    stop / r.span height + 1 - first / r.span height = r.size := by
  have ordered := Nat.div_le_div_right (c := r.span height) fits.ordered
  have distance := fits.digit_le
  have low := (digit_of_aligned start).1
  have high := (digit_before_aligned full).1
  omega

end Radix

namespace Node

theorem row_append (left : first ≤ stop) (right : stop < last)
    (aligned : (stop + 1) % r.span (height + 1) = 0) :
    row r f height first last = row r f height first stop ++ row r f height (stop + 1) last := by
  have room := r.span_pos (height + 1)
  obtain ⟨k, next⟩ := Nat.dvd_of_mod_eq_zero aligned
  rw [Nat.mul_comm] at next
  have start : (stop + 1) / r.span (height + 1) = k := by rw [next, Nat.mul_div_cancel _ room]
  have here : stop / r.span (height + 1) < k := by rw [Nat.div_lt_iff_lt_mul room]; omega
  have low := Nat.div_le_div_right (c := r.span (height + 1)) left
  have high := Nat.div_le_div_right (c := r.span (height + 1)) (Nat.succ_le_of_lt right)
  have step := r.slot_succ (height + 1) stop
  rw [Nat.succ_eq_add_one, start] at high
  rw [start] at step
  have count : last / r.span (height + 1) + 1 - first / r.span (height + 1) =
      (stop / r.span (height + 1) + 1 - first / r.span (height + 1)) +
        (last / r.span (height + 1) + 1 - k) := by omega
  have split : first / r.span (height + 1) +
      (stop / r.span (height + 1) + 1 - first / r.span (height + 1)) = k := by omega
  rw [row, count, ← List.range'_append_1, split, List.map_append, row, row, start]
  congr 1
  · apply List.map_congr_left
    intro c member
    rw [List.mem_range'_1] at member
    exact (part_right (by omega) (Nat.le_of_lt right)).symm
  · apply List.map_congr_left
    intro c member
    rw [List.mem_range'_1] at member
    have first_part : part r f height first last c = part r f height stop last c :=
      part_left (by omega) (by omega)
    have next_part : part r f height (stop + 1) last c = part r f height stop last c :=
      part_left (by omega) (by omega)
    rw [first_part, next_part]

/-- Grouping what stands below a row gives the row. `items` is what stands below a window, elements or
nodes, and it is cut where a node ends. -/
theorem chunks_items {β : Type} (items : Nat → Nat → List β) {parent : List β → Node α}
    (append : ∀ first stop, first ≤ stop → stop < last → (stop + 1) % r.span (height + 1) = 0 →
      items first last = items first stop ++ items (stop + 1) last)
    (length : ∀ first stop, (items first stop).length = stop / r.span height + 1 - first / r.span height)
    (node : ∀ first stop, first % r.span (height + 1) = 0 →
      parent (items first stop) = filled r f height first stop)
    (first : Nat) (ordered : first ≤ last) (aligned : first % r.span (height + 1) = 0) :
    (r.chunks (items first last)).map parent = row r f height first last := by
  induction first, ordered using row_induction r height with
  | single first ordered same =>
    have fits : r.Fits height first last := ⟨ordered, same⟩
    have count := fits.digit_add_count_le
    have monotone := Nat.div_le_div_right (c := r.span height) ordered
    have used : items first last ≠ [] := List.ne_nil_of_length_pos (by rw [length]; omega)
    rw [row_single same, Radix.chunks_short used (by rw [length]; omega), List.map_singleton,
      node first last aligned]
  | cons first ordered next more ih =>
    have room := r.span_pos (height + 1)
    have slot := Radix.slot_eq_iff.mp (rfl : first / r.span (height + 1) = _)
    have full : first / r.span (height + 1) * r.span (height + 1) + (r.span (height + 1) - 1) + 1 =
        (first / r.span (height + 1) + 1) * r.span (height + 1) := by
      rw [Nat.succ_mul]; omega
    have stop_aligned := Nat.mul_mod_left (first / r.span (height + 1) + 1) (r.span (height + 1))
    rw [← full] at stop_aligned
    have fits : r.Fits height first
        (first / r.span (height + 1) * r.span (height + 1) + (r.span (height + 1) - 1)) := by
      refine ⟨slot.2, ?_⟩
      rw [eq_comm, Radix.slot_eq_iff]; omega
    have slots := Radix.slots_of_aligned fits aligned stop_aligned
    rw [row_cons more, append first _ slot.2 (by omega) stop_aligned,
      Radix.chunks_append (by rw [length, slots]), List.map_cons, node first _ aligned, full,
      ih (Nat.mul_mod_left ..)]

theorem chunks_leaf (f : Nat → α) (last : Nat) :
    (r.chunks ((List.range' 0 (last + 1)).map f)).map (leaf 0) = row r f 0 0 last := by
  refine chunks_items (fun first stop => (List.range' first (stop + 1 - first)).map f)
    ?_ ?_ ?_ 0 (Nat.zero_le _) (Nat.zero_mod _)
  · intro first stop left right _
    have count : last + 1 - first = (stop + 1 - first) + (last + 1 - (stop + 1)) := by omega
    rw [count, ← List.range'_append_1, List.map_append]
    congr 3
    omega
  · simp
  · intro first stop aligned
    rw [Radix.span_succ, Radix.span_zero, Nat.one_mul] at aligned
    rw [filled_zero, aligned]

theorem chunks_row (last : Nat) :
    (r.chunks (row r f height 0 last)).map (interior 0) = row r f (height + 1) 0 last := by
  refine chunks_items (row r f height) ?_ (fun _ _ => length_row) ?_ 0 (Nat.zero_le _)
    (Nat.zero_mod _)
  · intro first stop left right aligned
    exact row_append left right (Radix.digit_before_aligned aligned).2
  · intro first stop aligned
    rw [filled_succ, (Radix.digit_of_aligned aligned).1]

/-- Where one node has no room for the window, there are nodes to group, and the next round starts with the row
of their parents. -/
theorem row_pair (more : r.span (height + 1) ≤ last) :
    ∃ a b rest, row r f height 0 last = a :: b :: rest ∧
      (r.chunks (a :: b :: rest)).map (interior 0) = row r f (height + 1) 0 last := by
  have slots : 0 / r.span (height + 1) < last / r.span (height + 1) := by
    rw [Nat.zero_div]
    exact Nat.div_pos more (r.span_pos _)
  obtain ⟨b, rest, -, second⟩ := row_head (f := f) (Radix.le_slot_iff.mp slots)
  have nodes := row_cons (f := f) slots
  rw [second] at nodes
  exact ⟨_, _, rest, nodes, by rw [← nodes, chunks_row]⟩

/-- A level with more than one node is no higher than the bits of a word. -/
theorem level_of_pair (more : r.span height ≤ last) (few : last < 2 ^ 64) : r.level height < 64 :=
  (Nat.pow_lt_pow_iff_right (by decide)).mp (Nat.lt_of_le_of_lt more few)

/-- Gathering ends at the first level where one node has room for the whole window. The count of levels goes
up only where there is more than one node, so it does not run over. -/
theorem gather_row (height : Nat) (few : last < 2 ^ 64) :
    ∃ top, height ≤ top ∧
      gather r (row r f height 0 last) (r.level height) =
        .ok (some (filled r f top 0 last, r.level top)) ∧
      last < r.span (top + 1) ∧ (top = height ∨ r.span top ≤ last) := by
  by_cases fits : last < r.span (height + 1)
  · refine ⟨height, Nat.le_refl _, ?_, fits, .inl rfl⟩
    rw [row_single (by rw [Nat.zero_div, Nat.div_eq_of_lt fits]), gather]
  · have more := Nat.le_of_not_lt fits
    have level := level_of_pair more few
    obtain ⟨top, above, gathered, room, least⟩ := gather_row (height + 1) few
    obtain ⟨a, b, rest, nodes, parents⟩ := row_pair (f := f) more
    refine ⟨top, by omega, ?_, room, .inr ?_⟩
    · rw [nodes, gather, parents, ← Radix.level_succ]
      exact bind_eq_ok_iff.mpr ⟨(), ensure_eq_ok_iff.mpr (by omega), gathered⟩
    · rcases least with rfl | lower
      · exact more
      · exact lower
termination_by last + 1 - r.span (height + 1)
decreasing_by
  have wider := r.two_mul_span_le (height + 1)
  have room := r.span_pos (height + 1)
  omega

theorem exists_row (r : Radix) (used : xs ≠ []) :
    ∃ f, (List.range' 0 xs.length).map f = xs ∧
      (r.chunks xs).map (leaf 0) = row r f 0 0 (xs.length - 1) := by
  have positive := List.length_pos_iff.mpr used
  have elements : (List.range' 0 xs.length).map (fun p => (xs[p]?).getD (xs[0])) = xs := by
    apply List.ext_getElem
    · simp
    · intro i _ inside
      simp [inside]
  refine ⟨_, elements, ?_⟩
  rw [← chunks_leaf, Nat.sub_add_cancel positive, elements]

theorem count_runs {runs : List (List α)} (word : n < 2 ^ 64) :
    runs.foldlM (fun n run => Word.add n run.length) n = .ok stop ↔
      n + runs.flatten.length < 2 ^ 64 ∧ n + runs.flatten.length = stop := by
  induction runs generalizing n with
  | nil => exact ⟨fun counted => ⟨word, Except.ok.inj counted⟩, fun same => congrArg Except.ok same.2⟩
  | cons run rest ih =>
    rw [List.foldlM_cons, bind_eq_ok_iff, List.flatten_cons, List.length_append, ← Nat.add_assoc]
    constructor
    · rintro ⟨_, counted, others⟩
      obtain ⟨small, rfl⟩ := Word.add_eq_ok_iff.mp counted
      rw [Word.limit_eq] at small
      exact (ih small).mp others
    · intro small
      have counted : n + run.length < 2 ^ 64 := by omega
      exact ⟨_, Word.add_of_lt rfl counted, (ih counted).mpr small⟩

theorem count_chunks (r : Radix) (xs : List α) :
    (r.chunks xs).foldlM (fun n run => Word.add n run.length) 0 = .ok stop ↔
      xs.length < 2 ^ 64 ∧ xs.length = stop := by
  rw [count_runs (Nat.two_pow_pos 64), r.flatten_chunks, Nat.zero_add]

theorem pack_nil : pack r ([] : List α) = .ok none := by
  rw [pack, Radix.chunks, List.map_nil, gather]
  rfl

/-- The packed tree of a sequence is the tree of the window from zero on, no higher than it has to be. -/
theorem pack_filled (used : xs ≠ []) (few : xs.length < 2 ^ 64) :
    ∃ f height,
      pack r xs = .ok (some ⟨filled r f height 0 (xs.length - 1), r.level height, xs.length⟩) ∧
      (List.range' 0 xs.length).map f = xs ∧ xs.length ≤ r.span (height + 1) ∧
      (height = 0 ∨ r.span height < xs.length) := by
  have positive := List.length_pos_iff.mpr used
  have last : xs.length - 1 < 2 ^ 64 := Nat.lt_of_le_of_lt (Nat.sub_le _ _) few
  obtain ⟨f, elements, leaves⟩ := exists_row r used
  obtain ⟨height, -, gathered, room, least⟩ := gather_row (r := r) (f := f) 0 last
  rw [← leaves, Radix.level_zero] at gathered
  have counted := (count_chunks r xs).mpr ⟨few, rfl⟩
  refine ⟨f, height, ?_, elements, by omega, least.imp_right fun lower => by omega⟩
  exact bind_eq_ok_iff.mpr ⟨_, counted, bind_eq_ok_iff.mpr ⟨_, gathered, rfl⟩⟩

inductive FromZero : Node α → Prop where
  | leaf (slots : List α) : FromZero (.leaf 0 slots)
  | interior {children : List (Node α)} : (∀ child ∈ children, FromZero child) →
      FromZero (.interior 0 children)

/-- Grouping nodes under parents keeps them and starts the parents at digit zero. -/
theorem gather_fromZero {nodes : List (Node α)} {root : Node α} {top : Nat}
    (each : ∀ node ∈ nodes, FromZero node) (gathered : gather r nodes level = .ok (some (root, top))) :
    FromZero root := by
  fun_induction gather r nodes level with
  | case1 => cases gathered
  | case2 level root =>
    cases gathered
    exact each root List.mem_cons_self
  | case3 level a b rest ih =>
    obtain ⟨-, -, parents⟩ := bind_eq_ok_iff.mp gathered
    refine ih (fun parent member => ?_) parents
    obtain ⟨children, group, rfl⟩ := List.mem_map.mp member
    refine .interior fun child inside => each child ?_
    rw [← r.flatten_chunks (a :: b :: rest)]
    exact List.mem_flatten.mpr ⟨children, group, inside⟩

theorem pack_fromZero {packed : Packed α} (built : pack r xs = .ok (some packed)) :
    FromZero packed.root := by
  obtain ⟨length, -, tree⟩ := bind_eq_ok_iff.mp built
  obtain ⟨found, gathered, same⟩ := bind_eq_ok_iff.mp tree
  obtain ⟨⟨root, top⟩, rfl, rfl⟩ := Option.map_eq_some_iff.mp (Except.ok.inj same)
  refine gather_fromZero (fun node member => ?_) gathered
  obtain ⟨slots, -, rfl⟩ := List.mem_map.mp member
  exact .leaf slots

end Node

namespace Trie

variable {t : Trie r α}

theorem ofList_nil : ofList [] = .ok (empty : Trie r α) :=
  bind_eq_ok_iff.mpr ⟨none, Node.pack_nil, rfl⟩

theorem ofList_filled (used : xs ≠ []) (few : xs.length < 2 ^ 64) :
    ∃ f height, ofList xs = .ok (filled f height 0 xs.length : Trie r α) ∧
      (List.range' 0 xs.length).map f = xs ∧ xs.length ≤ r.span (height + 1) ∧
      (height = 0 ∨ r.span height < xs.length) := by
  obtain ⟨f, height, packed, elements, room, least⟩ := Node.pack_filled (r := r) used few
  refine ⟨f, height, bind_eq_ok_iff.mpr ⟨_, packed, ?_⟩, elements, room, least⟩
  rw [filled, Nat.zero_add]
  rfl

theorem ofList_cases (built : ofList xs = .ok t) :
    xs = [] ∧ t = empty ∨ xs ≠ [] ∧ ∃ f height, t = filled f height 0 xs.length ∧
      (List.range' 0 xs.length).map f = xs ∧ xs.length ≤ r.span (height + 1) ∧
      (height = 0 ∨ r.span height < xs.length) := by
  by_cases used : xs = []
  · subst used
    cases built.symm.trans ofList_nil
    exact .inl ⟨rfl, rfl⟩
  · obtain ⟨_, packed, -⟩ := bind_eq_ok_iff.mp built
    obtain ⟨_, counted, -⟩ := bind_eq_ok_iff.mp packed
    obtain ⟨few, -⟩ := (Node.count_chunks r xs).mp counted
    obtain ⟨f, height, again, window⟩ := ofList_filled (r := r) used few
    cases built.symm.trans again
    exact .inr ⟨used, f, height, rfl, window⟩

/-- If any level whose capacity is a word has room for the sequence, so has the level of its packed trie. -/
theorem admits_ofList (used : xs ≠ []) (word : r.level n + r.bits ≤ 63)
    (room : xs.length ≤ r.span (n + 1)) (inside : xs.length ≤ r.span (height + 1))
    (least : height = 0 ∨ r.span height < xs.length) : r.Admits height 0 xs.length := by
  have level : r.level height ≤ r.level n := Nat.mul_le_mul_right _ (Radix.height_le room least)
  exact ⟨List.length_pos_iff.mpr used, by omega, by omega⟩

/-- A sequence that fits below some level whose capacity is a word is packed into an accepted trie. -/
theorem ofList_accepted (word : r.level n + r.bits ≤ 63) (room : xs.length ≤ r.span (n + 1)) :
    ∃ t : Trie r α, ofList xs = .ok t ∧ t.Accepted ∧ t.toList = xs := by
  by_cases used : xs = []
  · subst used
    exact ⟨empty, ofList_nil, empty_accepted, rfl⟩
  · have capacity : r.span (n + 1) < 2 ^ 64 := by
      rw [Radix.span, Radix.level_succ]
      exact Nat.pow_lt_pow_right (by decide) (by omega)
    obtain ⟨f, height, packed, elements, inside, least⟩ :=
      ofList_filled (r := r) used (Nat.lt_of_le_of_lt room capacity)
    have admits := admits_ofList used word room inside least
    exact ⟨_, packed, filled_accepted admits, (toList_filled admits).trans elements⟩

end Trie

end DigitTrie
