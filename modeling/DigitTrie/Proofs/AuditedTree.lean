import DigitTrie.Proofs.FilledAudit

/-! What a passed audit says. The checker looks at each node alone: how many slots are in use, and where
they start and stop. Taken together over a whole subtree, this leaves one run of indices, which begins at
the left side unless the subtree lies on the left edge and ends at the right side unless it lies on the
right edge. -/
namespace DigitTrie.Node

variable {r : Radix} {α : Type} {f : Nat → α} {node child : Node α} {children : List (Node α)}
  {height level base first offset length n : Nat} {onLeft onRight : Bool}

/-- The entries of a subtree or of neighbouring subtrees stand at `n` successive indices from `first` on,
counted from the first index there is below them. Of the `room` below them, only an edge of the whole
tree may be missing. -/
structure Consecutive (entries : Nat → List (Nat × α)) (room : Nat) (onLeft onRight : Bool)
    (first n : Nat) : Prop where
  positive : 0 < n
  left : onLeft = true ∨ first = 0
  right : onRight = true ∨ first + n = room
  inside : first + n ≤ room
  indices : ∀ base, (entries base).map Prod.fst = List.range' (base + first) n

theorem Consecutive.append {a b room first start : Nat} {here behind : Nat → List (Nat × α)}
    (head : Consecutive here (r.span height) onLeft false first a)
    (tail : Consecutive behind room false onRight start b) :
    Consecutive (fun base => here base ++ behind (base + r.span height)) (r.span height + room)
      onLeft onRight first (a + b) := by
  have full := head.right.resolve_left Bool.false_ne_true
  have zero := tail.left.resolve_left Bool.false_ne_true
  subst zero
  have := head.positive
  have := tail.inside
  refine ⟨by omega, head.left, ?_, by omega, ?_⟩
  · exact tail.right.imp_right fun stop => by omega
  · intro base
    rw [List.map_append, head.indices, tail.indices, ← List.range'_append_1]
    congr 2
    omega

/-- The children of an audited node store one run, which begins below the first and ends below the
last of them. -/
theorem auditForest_consecutive
    (each : ∀ child ∈ children, ∀ onLeft onRight n,
      child.audit r (r.level height) onLeft onRight = .ok n →
      ∃ first, Consecutive (child.entries r (r.level height)) (r.span (height + 1)) onLeft onRight first n)
    (used : children ≠ [])
    (passed : auditForest r children (r.level height) onLeft onRight = .ok n) :
    ∃ first, Consecutive (forestEntries r children (r.level (height + 1)))
      (children.length * r.span (height + 1)) onLeft onRight first n := by
  induction children generalizing onLeft n with
  | nil => exact absurd rfl used
  | cons child rest ih =>
    obtain ⟨a, b, head, tail, rfl⟩ := auditForest_cons.mp passed
    obtain ⟨first, run⟩ := each child List.mem_cons_self _ _ _ head
    refine ⟨first, ?_⟩
    cases rest with
    | nil =>
      cases tail
      simpa [forestEntries, Radix.level_succ_sub_bits] using run
    | cons next rest =>
      obtain ⟨start, behind⟩ :=
        ih (fun c member => each c (List.mem_cons_of_mem _ member)) (List.cons_ne_nil _ _) tail
      rw [List.isEmpty_cons, Bool.and_false] at run
      have split : forestEntries r (child :: next :: rest) (r.level (height + 1)) = fun base =>
          child.entries r (r.level height) base ++
            forestEntries r (next :: rest) (r.level (height + 1)) (base + r.span (height + 1)) := by
        funext base
        rw [forestEntries_cons]
      rw [split, List.length_cons, Nat.succ_mul, Nat.add_comm (_ * _)]
      exact run.append behind

theorem audit_of_mem_forest (passed : auditForest r children level onLeft onRight = .ok n)
    (member : child ∈ children) :
    ∃ onLeft onRight n, child.audit r level onLeft onRight = .ok n := by
  induction children generalizing onLeft n with
  | nil => exact absurd member List.not_mem_nil
  | cons head rest ih =>
    obtain ⟨a, b, first, others, -⟩ := auditForest_cons.mp passed
    rcases List.mem_cons.mp member with rfl | later
    · exact ⟨_, _, _, first⟩
    · exact ih others later

theorem audit_cases (passed : node.audit r (r.level height) onLeft onRight = .ok n) :
    (∃ start slots, node = .leaf start slots ∧ height = 0 ∧
      auditSlots r start slots.length onLeft onRight = .ok () ∧ slots.length = n) ∨
    (∃ start children below, node = .interior start children ∧ height = below + 1 ∧
      auditSlots r start children.length onLeft onRight = .ok () ∧
      auditForest r children (r.level below) onLeft onRight = .ok n) := by
  cases node with
  | leaf start slots =>
    obtain ⟨bottom, checked, count⟩ := audit_leaf.mp passed
    cases height with
    | zero => exact .inl ⟨start, slots, rfl, rfl, checked, count⟩
    | succ height => exact absurd bottom Radix.level_succ_ne_zero
  | interior start children =>
    obtain ⟨above, checked, -, below⟩ := audit_interior.mp passed
    cases height with
    | zero => exact absurd Radix.level_zero above
    | succ height =>
      rw [Radix.level_succ_sub_bits] at below
      exact .inr ⟨start, children, height, rfl, rfl, checked, below⟩

theorem audit_shaped (passed : node.audit r (r.level height) onLeft onRight = .ok n) :
    Shaped r (r.level height) node ∧ Occupied node := by
  induction height generalizing node onLeft onRight n with
  | zero =>
    rcases audit_cases passed with ⟨start, slots, rfl, -, checked, -⟩ | ⟨_, _, _, _, above, _⟩
    · obtain ⟨used, short, -⟩ := auditSlots_eq_ok_iff.mp checked
      rw [Radix.level_zero]
      exact ⟨.leaf short, .leaf (List.ne_nil_of_length_pos (Nat.pos_of_ne_zero used))⟩
    · omega
  | succ height ih =>
    rcases audit_cases passed with ⟨_, _, _, bottom, _⟩ | ⟨start, children, _, rfl, same, checked, below⟩
    · omega
    · cases same
      obtain ⟨used, short, -⟩ := auditSlots_eq_ok_iff.mp checked
      have each (child) (member : child ∈ children) : Shaped r (r.level height) child ∧ Occupied child := by
        obtain ⟨_, _, _, audited⟩ := audit_of_mem_forest below member
        exact ih audited
      rw [Radix.level_succ]
      exact ⟨.interior short fun child member => (each child member).1,
        .interior (List.ne_nil_of_length_pos (Nat.pos_of_ne_zero used)) fun child member =>
          (each child member).2⟩

theorem audit_consecutive (passed : node.audit r (r.level height) onLeft onRight = .ok n) :
    ∃ first, Consecutive (node.entries r (r.level height)) (r.span (height + 1)) onLeft onRight first n := by
  induction height generalizing node onLeft onRight n with
  | zero =>
    rcases audit_cases passed with ⟨start, slots, rfl, -, checked, rfl⟩ | ⟨_, _, _, _, above, _⟩
    · obtain ⟨used, short, left, right⟩ := auditSlots_eq_ok_iff.mp checked
      rw [Radix.span_succ, Radix.span_zero, Nat.one_mul]
      refine ⟨start, Nat.pos_of_ne_zero used, left, right, short, fun base => ?_⟩
      apply List.ext_getElem
      · simp [entries]
      · simp [entries, Nat.add_assoc]
    · omega
  | succ height ih =>
    rcases audit_cases passed with ⟨_, _, _, bottom, _⟩ | ⟨start, children, _, rfl, same, checked, below⟩
    · omega
    · cases same
      obtain ⟨used, short, left, right⟩ := auditSlots_eq_ok_iff.mp checked
      obtain ⟨first, run⟩ := auditForest_consecutive (fun child _ _ _ _ audited => ih audited)
        (List.ne_nil_of_length_pos (Nat.pos_of_ne_zero used)) below
      have := run.inside
      have room := Nat.mul_le_mul_right (r.span (height + 1)) short
      rw [Nat.add_mul, Nat.mul_comm r.size, ← Radix.span_succ] at room
      refine ⟨start * r.span (height + 1) + first, run.positive, ?_, ?_, by omega, fun base => ?_⟩
      · rcases left with edge | zero
        · exact .inl edge
        · exact run.left.imp_right fun first_zero => by rw [zero, first_zero, Nat.zero_mul]
      · rcases right with edge | last
        · exact .inl edge
        · refine run.right.imp_right fun stop => ?_
          rw [r.span_succ (height + 1), Nat.mul_comm _ r.size, ← last, Nat.add_mul]
          omega
      · rw [entries_interior, run.indices, Nat.add_assoc]

end DigitTrie.Node
