import DigitTrie.Proofs.Canonical

/-! Places and lists instead of tries. An accepted trie is the list of its elements and, if there are any, the
place where they stand below the root; there is nothing more to it. So what an operation does is said by what
it does to a place and to a list, and two ways of making a trie lead to the same tree as soon as they agree
in both. -/
namespace DigitTrie.Trie

variable {r : Radix} {α : Type} {x : α} {xs ys : List α} {s t u : Trie r α} {i n : Nat}

/-- The level of a root, and the index below it that the first element has. -/
structure Place where
  level : Nat
  offset : Nat

namespace Place

variable (r : Radix) (p : Place)

def skip (n : Nat) : Place := ⟨p.level, p.offset + n⟩

/-- Where `n` elements stand when one more was added behind them. At the end of the tree, a level is put on
top. -/
def pushBack (n : Nat) : Place :=
  if p.offset + n = r.size * 2 ^ p.level then ⟨p.level + r.bits, p.offset⟩ else p

/-- Where elements stand when one more was added before them. At the start of the tree, a level is put on top,
and they move into the last child of the new root. -/
def pushFront : Place :=
  if p.offset = 0 then ⟨p.level + r.bits, (r.size - 1) * 2 ^ (p.level + r.bits) - 1⟩
  else ⟨p.level, p.offset - 1⟩

def BackBlocked (n : Nat) : Prop := p.offset + n = r.size * 2 ^ p.level ∧ 63 < p.level + 2 * r.bits

def FrontBlocked : Prop := p.offset = 0 ∧ 63 < p.level + 2 * r.bits

def Fills (n : Nat) : Prop := p.offset = 0 ∧ n = r.size * 2 ^ p.level

theorem skip_skip (n m : Nat) : (p.skip n).skip m = p.skip (n + m) :=
  congrArg (mk p.level) (Nat.add_assoc p.offset n m)

end Place

def place (t : Trie r α) : Place := ⟨t.level, t.offset⟩

/-- The trie is accepted and has these elements, and if there are any, this is where they stand. -/
structure Holds (t : Trie r α) (p : Place) (xs : List α) : Prop where
  accepted : t.Accepted
  elements : t.toList = xs
  place : xs ≠ [] → t.place = p

variable {p q : Place}

theorem place_of_window {w : Window} (window : t.window = w) : t.place = ⟨w.level, w.offset⟩ :=
  congrArg (fun w : Window => Place.mk w.level w.offset) window

theorem Accepted.holds (accepted : t.Accepted) : t.Holds t.place t.toList := ⟨accepted, rfl, fun _ => rfl⟩

theorem Accepted.toList_ne_nil (accepted : t.Accepted) (used : 0 < t.length) : t.toList ≠ [] :=
  List.ne_nil_of_length_pos (by rwa [length_toList accepted])

theorem Accepted.backBlocked_iff (accepted : t.Accepted) :
    t.place.BackBlocked r t.toList.length ↔ t.BackBlocked := by
  rw [length_toList accepted]
  exact Iff.rfl

namespace Holds

theorem length (holds : t.Holds p xs) : t.length = xs.length := by
  rw [← holds.elements, length_toList holds.accepted]

/-- One list at one place is one trie. -/
theorem eq (t_holds : t.Holds p xs) (u_holds : u.Holds p xs) : t = u := by
  by_cases vacant : xs = []
  · have t_vacant : t.length = 0 := by rw [t_holds.length, vacant, List.length_nil]
    have u_vacant : u.length = 0 := by rw [u_holds.length, vacant, List.length_nil]
    rw [t_holds.accepted.eq_empty t_vacant, u_holds.accepted.eq_empty u_vacant]
  · obtain ⟨level, offset⟩ := Place.mk.inj ((t_holds.place vacant).trans (u_holds.place vacant).symm)
    exact t_holds.accepted.ext u_holds.accepted level offset (t_holds.elements.trans u_holds.elements.symm)

theorem eq_iff (used : xs ≠ []) (t_holds : t.Holds p xs) (u_holds : u.Holds q xs) : t = u ↔ p = q := by
  constructor
  · rintro rfl
    exact (t_holds.place used).symm.trans (u_holds.place used)
  · rintro rfl
    exact t_holds.eq u_holds

theorem set (holds : t.Holds p xs) (inside : i < xs.length) (x : α) :
    ∃ u, t.set i x = .ok (.done, u) ∧ u.Holds p (xs.set i x) := by
  obtain ⟨accepted, rfl, place⟩ := holds
  rw [length_toList accepted] at inside
  obtain ⟨u, done, u_accepted, window⟩ := set_step accepted inside (x := x)
  obtain ⟨_, again, -, elements⟩ := set_toList accepted inside x
  cases done.symm.trans again
  refine ⟨u, done, u_accepted, elements, fun left => (place_of_window window).trans ?_⟩
  exact place (mt (List.set_eq_nil_iff i x).mpr left)

theorem drop (holds : t.Holds p xs) (n : Nat) :
    ∃ u, t.drop n = .ok u ∧ u.Holds (p.skip n) (xs.drop n) := by
  obtain ⟨accepted, rfl, place⟩ := holds
  obtain ⟨u, dropped, u_accepted, whole, -, cut⟩ := drop_step accepted n
  obtain ⟨_, again, -, elements⟩ := drop_toList accepted n
  cases dropped.symm.trans again
  refine ⟨u, dropped, u_accepted, elements, fun left => ?_⟩
  have short : n < t.length := by
    rw [← length_toList accepted]
    exact Nat.lt_of_not_le (mt List.drop_eq_nil_iff.mpr left)
  rw [← place (List.ne_nil_of_drop_ne_nil left)]
  rcases Nat.eq_zero_or_pos n with rfl | positive
  · rw [whole rfl]
    rfl
  · exact place_of_window (cut positive short)

theorem take (holds : t.Holds p xs) (n : Nat) : ∃ u, t.take n = .ok u ∧ u.Holds p (xs.take n) := by
  obtain ⟨accepted, rfl, place⟩ := holds
  obtain ⟨u, taken, u_accepted, elements⟩ := take_toList accepted n
  refine ⟨u, taken, u_accepted, elements, fun left => ?_⟩
  have count : 0 < min n t.length := by
    rw [← length_toList accepted, ← List.length_take]
    exact List.length_pos_of_ne_nil left
  rw [← place (List.ne_nil_of_take_ne_nil left)]
  exact place_of_window ((take_window accepted taken).2 count)

theorem slice (holds : t.Holds p xs) (start stop : Nat) :
    ∃ u, t.slice start stop = .ok u ∧ u.Holds (p.skip start) ((xs.take stop).drop start) := by
  obtain ⟨front, taken, front_holds⟩ := holds.take stop
  obtain ⟨u, dropped, u_holds⟩ := front_holds.drop start
  exact ⟨u, bind_eq_ok_iff.mpr ⟨front, taken, dropped⟩, u_holds⟩

/-- A push to the back; it reports a growth exactly if it adds a level. -/
theorem pushBack (holds : t.Holds p xs) (used : xs ≠ []) (room : ¬ p.BackBlocked r xs.length) (x : α) :
    ∃ u growth, t.pushBack x = .ok (u, growth) ∧ u.Holds (p.pushBack r xs.length) (xs ++ [x]) ∧
      (growth = none ↔ u.level = t.level) := by
  obtain ⟨accepted, rfl, place⟩ := holds
  cases place used
  rw [length_toList accepted] at room ⊢
  by_cases full : t.offset + t.length = r.size * 2 ^ t.level
  · have word : t.level + 2 * r.bits ≤ 63 := Nat.not_lt.mp fun high => room ⟨full, high⟩
    obtain ⟨u, pushed, u_accepted, elements, window⟩ := pushBack_grows accepted full word x
    have level : u.level = t.level + r.bits := congrArg Window.level window
    have grown : u.place = t.place.pushBack r t.length := (place_of_window window).trans (if_pos full).symm
    refine ⟨u, _, pushed, ⟨u_accepted, elements, fun _ => grown⟩, ?_⟩
    simp [level, Nat.ne_of_gt r.bits_pos]
  · have inside : t.offset + t.length < r.size * 2 ^ t.level := Nat.lt_of_le_of_ne accepted.inside full
    obtain ⟨u, pushed, u_accepted, elements, window⟩ := pushBack_room accepted inside x
    have level : u.level = t.level := congrArg Window.level window
    have same : u.place = t.place.pushBack r t.length := (place_of_window window).trans (if_neg full).symm
    refine ⟨u, _, pushed, ⟨u_accepted, elements, fun _ => same⟩, ?_⟩
    simp [level]

/-- A push to the front; it reports a growth exactly if it adds a level. -/
theorem pushFront (holds : t.Holds p xs) (used : xs ≠ []) (room : ¬ p.FrontBlocked r) (x : α) :
    ∃ u growth, t.pushFront x = .ok (u, growth) ∧ u.Holds (p.pushFront r) (x :: xs) ∧
      (growth = none ↔ u.level = t.level) := by
  obtain ⟨accepted, rfl, place⟩ := holds
  cases place used
  by_cases full : t.offset = 0
  · have positive : 0 < t.length := by
      rw [← length_toList accepted]
      exact List.length_pos_of_ne_nil used
    have word : t.level + 2 * r.bits ≤ 63 := Nat.not_lt.mp fun high => room ⟨full, high⟩
    obtain ⟨u, pushed, u_accepted, elements, window⟩ := pushFront_grows accepted positive full word x
    have level : u.level = t.level + r.bits := congrArg Window.level window
    have grown : u.place = t.place.pushFront r := (place_of_window window).trans (if_pos full).symm
    refine ⟨u, _, pushed, ⟨u_accepted, elements, fun _ => grown⟩, ?_⟩
    simp [level, Nat.ne_of_gt r.bits_pos]
  · obtain ⟨u, pushed, u_accepted, elements, window⟩ :=
      pushFront_room accepted (Nat.pos_of_ne_zero full) x
    have level : u.level = t.level := congrArg Window.level window
    have moved : u.place = t.place.pushFront r := (place_of_window window).trans (if_neg full).symm
    refine ⟨u, _, pushed, ⟨u_accepted, elements, fun _ => moved⟩, ?_⟩
    simp [level]

end Holds

/-! Operations in order. -/

variable {op : Op α} {ops others : List (Op α)} {growth : Option Growth} {growths new : List Growth}

theorem apply_pushBack (pushed : t.pushBack x = .ok (u, growth)) :
    (Op.pushBack x).apply t = .ok (u, growth.toList) := bind_eq_ok_iff.mpr ⟨_, pushed, rfl⟩

theorem apply_pushFront (pushed : t.pushFront x = .ok (u, growth)) :
    (Op.pushFront x).apply t = .ok (u, growth.toList) := bind_eq_ok_iff.mpr ⟨_, pushed, rfl⟩

theorem apply_set (done : t.set i x = .ok (.done, u)) : (Op.set i x).apply t = .ok (u, []) :=
  bind_eq_ok_iff.mpr ⟨_, update_eq_ok_iff.mpr done, rfl⟩

theorem apply_drop (dropped : t.drop n = .ok u) : (Op.drop n).apply t = .ok (u, []) :=
  bind_eq_ok_iff.mpr ⟨_, dropped, rfl⟩

theorem apply_take (taken : t.take n = .ok u) : (Op.take n).apply t = .ok (u, []) :=
  bind_eq_ok_iff.mpr ⟨_, taken, rfl⟩

theorem apply_slice {start stop : Nat} (sliced : t.slice start stop = .ok u) :
    (Op.slice start stop).apply t = .ok (u, []) := bind_eq_ok_iff.mpr ⟨_, sliced, rfl⟩

/-- The operations go through, and the trie they lead to has these elements, at this place. -/
def Leads (t : Trie r α) (ops : List (Op α)) (p : Place) (xs : List α) : Prop :=
  ∃ u growths, t.run ops = .ok (u, growths) ∧ u.Holds p xs

/-- Both sequences of operations go through, and they lead to one and the same trie. -/
def Joins (t : Trie r α) (ops others : List (Op α)) : Prop :=
  ∃ u growths reported, t.run ops = .ok (u, growths) ∧ t.run others = .ok (u, reported) ∧ u.Accepted

theorem run_snoc (run : t.run ops = .ok (s, growths)) (applied : op.apply s = .ok (u, new)) :
    t.run (ops ++ [op]) = .ok (u, growths ++ new) := by
  unfold Trie.run at run ⊢
  rw [List.foldlM_append, run]
  simp [applied, bind, Except.bind, pure, Except.pure]

theorem Accepted.leads (accepted : t.Accepted) : t.Leads [] t.place t.toList := ⟨t, [], rfl, accepted.holds⟩

namespace Leads

/-- One more operation, of which it is known what it does at this place. -/
theorem snoc (leads : t.Leads ops p xs)
    (step : ∀ s : Trie r α, s.Holds p xs → ∃ u new, op.apply s = .ok (u, new) ∧ u.Holds q ys) :
    t.Leads (ops ++ [op]) q ys := by
  obtain ⟨s, growths, run, s_holds⟩ := leads
  obtain ⟨u, new, applied, u_holds⟩ := step s s_holds
  exact ⟨u, growths ++ new, run_snoc run applied, u_holds⟩

theorem set (leads : t.Leads ops p xs) (inside : i < xs.length) (x : α) :
    t.Leads (ops ++ [.set i x]) p (xs.set i x) := by
  refine leads.snoc fun s s_holds => ?_
  obtain ⟨u, done, u_holds⟩ := s_holds.set inside x
  exact ⟨u, _, apply_set done, u_holds⟩

theorem drop (leads : t.Leads ops p xs) (n : Nat) : t.Leads (ops ++ [.drop n]) (p.skip n) (xs.drop n) := by
  refine leads.snoc fun s s_holds => ?_
  obtain ⟨u, dropped, u_holds⟩ := s_holds.drop n
  exact ⟨u, _, apply_drop dropped, u_holds⟩

theorem take (leads : t.Leads ops p xs) (n : Nat) : t.Leads (ops ++ [.take n]) p (xs.take n) := by
  refine leads.snoc fun s s_holds => ?_
  obtain ⟨u, taken, u_holds⟩ := s_holds.take n
  exact ⟨u, _, apply_take taken, u_holds⟩

theorem slice (leads : t.Leads ops p xs) (start stop : Nat) :
    t.Leads (ops ++ [.slice start stop]) (p.skip start) ((xs.take stop).drop start) := by
  refine leads.snoc fun s s_holds => ?_
  obtain ⟨u, sliced, u_holds⟩ := s_holds.slice start stop
  exact ⟨u, _, apply_slice sliced, u_holds⟩

theorem pushBack (leads : t.Leads ops p xs) (used : xs ≠ []) (room : ¬ p.BackBlocked r xs.length) (x : α) :
    t.Leads (ops ++ [.pushBack x]) (p.pushBack r xs.length) (xs ++ [x]) := by
  refine leads.snoc fun s s_holds => ?_
  obtain ⟨u, _, pushed, u_holds, -⟩ := s_holds.pushBack used room x
  exact ⟨u, _, apply_pushBack pushed, u_holds⟩

theorem pushFront (leads : t.Leads ops p xs) (used : xs ≠ []) (room : ¬ p.FrontBlocked r) (x : α) :
    t.Leads (ops ++ [.pushFront x]) (p.pushFront r) (x :: xs) := by
  refine leads.snoc fun s s_holds => ?_
  obtain ⟨u, _, pushed, u_holds, -⟩ := s_holds.pushFront used room x
  exact ⟨u, _, apply_pushFront pushed, u_holds⟩

theorem joins (leads : t.Leads ops p xs) (other : t.Leads others p xs) : t.Joins ops others := by
  obtain ⟨u, growths, run, u_holds⟩ := leads
  obtain ⟨v, reported, other_run, v_holds⟩ := other
  cases u_holds.eq v_holds
  exact ⟨u, growths, reported, run, other_run, u_holds.accepted⟩

end Leads

end DigitTrie.Trie
