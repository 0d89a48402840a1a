import DigitTrie.Cursor
import DigitTrie.Proofs.Acceptance

/-! Reading an accepted trie. A cursor keeps part of a leaf, and what it keeps is always a first stretch of
the elements still to come, whether or not the leaf starts or ends with the window; so each reading step
gives the next element, and a reading gives the elements in their order. -/
namespace DigitTrie

variable {r : Radix} {α β : Type} {f : Nat → α} {t : Trie r α} {c : Cursor r α}
  {height offset length index : Nat}

namespace Cursor

def coming (c : Cursor r α) : List α := c.trie.toList.drop c.index

/-- The cursor reads an accepted trie, and what it keeps of a leaf comes next. -/
structure Sound (c : Cursor r α) : Prop where
  accepted : c.trie.Accepted
  leaf : ∃ n, c.leaf = c.coming.take n

theorem sound_cursorAt (accepted : t.Accepted) (i : Nat) : (t.cursorAt i).Sound := ⟨accepted, 0, rfl⟩

theorem length_coming (accepted : c.trie.Accepted) : c.coming.length = c.remaining := by
  simp [coming, remaining, Trie.length_toList accepted]

theorem take_coming_filled (admits : r.Admits height offset length) (leaf : List α) (n : Nat) :
    (⟨.filled f height offset length, leaf, index⟩ : Cursor r α).coming.take n =
      (List.range' (offset + index) (min n (length - index))).map f := by
  simp only [coming, Trie.toList_filled admits, ← List.map_drop, List.drop_range', Nat.mul_one,
    ← List.map_take]
  rw [List.take_eq_take_min, List.length_range', List.take_range'_of_length_ge (Nat.min_le_right ..)]

/-- What a fetch meets on its way: the index is a word, its leaf is there and does not start behind it, and the
slots from `start` to `stop` that are taken of the leaf are some, and are in use. -/
structure Meets (c : Cursor r α) (leaf : Leaf α) (start stop : Nat) : Prop where
  word : Word.add c.trie.offset c.index = .ok (c.trie.offset + c.index)
  found : c.trie.findLeaf (c.trie.offset + c.index) = .ok (some leaf)
  begins : Word.sub (r.lastDigit (c.trie.offset + c.index)) leaf.start = .ok start
  wanted : Word.add start c.remaining = .ok (start + c.remaining)
  ends : stop = min leaf.slots.length (start + c.remaining)
  used : start < stop

theorem Meets.fetch {leaf : Leaf α} {start stop : Nat} (meets : c.Meets leaf start stop) :
    c.fetch = .ok ((leaf.slots.take stop).drop start) := by
  rw [Cursor.fetch, bind_eq_ok_iff]
  refine ⟨_, meets.word, bind_eq_ok_iff.mpr ⟨_, meets.found, bind_eq_ok_iff.mpr ⟨_, meets.begins, ?_⟩⟩⟩
  refine bind_eq_ok_iff.mpr ⟨_, meets.wanted, bind_eq_ok_iff.mpr ⟨(), ensure_eq_ok_iff.mpr ?_, ?_⟩⟩
  · rw [← meets.ends]
    exact Nat.le_of_lt meets.used
  · rw [← meets.ends]
    rfl

/-- A fetch goes as it should, and what it takes of the leaf comes next, up to the next index that starts a
leaf. -/
theorem exists_meets (accepted : c.trie.Accepted) (more : c.index < c.trie.length) :
    ∃ leaf start stop, c.Meets leaf start stop ∧ (leaf.slots.take stop).drop start =
      c.coming.take (r.size - (c.trie.offset + c.index) % r.size) := by
  obtain ⟨trie, kept, index⟩ := c
  rcases accepted.cases with rfl | ⟨f, height, offset, length, admits, rfl⟩
  · exact absurd more (Nat.not_lt_zero index)
  have more : index < length := more
  have left : offset ≤ offset + index := Nat.le_add_right offset index
  have right : offset + index ≤ offset + length - 1 := by omega
  have ends : offset + length - 1 + 1 - (offset + index) = length - index := by omega
  have stop := admits.stop_le
  have bound := Nat.mod_lt (offset + index) r.size_pos
  have found := Node.findLeaf_filled (f := f) admits.fits left right admits.level_lt
  obtain ⟨le, slot⟩ := Node.leafAt_slot r f (offset + length - 1) left
  have behind := Node.drop_leafAt (r := r) (f := f) left right
  rw [ends] at behind
  generalize Node.leafAt r f offset (offset + length - 1) (offset + index) = leaf at found le slot behind
  generalize start : r.lastDigit (offset + index) - leaf.start = first at slot behind
  have count : leaf.slots.length - first = min (r.size - (offset + index) % r.size) (length - index) := by
    simpa using congrArg List.length behind
  -- The leaf ends before the trie does, or with it: nothing of what it holds is cut off.
  have uncut : leaf.slots.length = min leaf.slots.length (first + (length - index)) := by omega
  refine ⟨leaf, first, leaf.slots.length, ⟨Word.add_of_lt rfl ?_, found, ?_, Word.add_of_lt rfl ?_, uncut, ?_⟩, ?_⟩
  · change offset + index < 2 ^ 64
    omega
  · exact Word.sub_eq_ok_iff.mpr ⟨le, start⟩
  · change first + (length - index) < 2 ^ 64
    omega
  · omega
  · simp only [take_coming_filled admits, Trie.offset_filled, ← behind, List.take_length]

/-- A fetched leaf is cut at the index and at the end of the trie: it gives what comes next, up to the next
index that starts a leaf. -/
theorem fetch_coming (accepted : c.trie.Accepted) (more : c.index < c.trie.length) :
    c.fetch = .ok (c.coming.take (r.size - (c.trie.offset + c.index) % r.size)) := by
  obtain ⟨leaf, start, stop, meets, taken⟩ := exists_meets accepted more
  rw [meets.fetch, taken]

theorem next_end (ended : c.trie.length ≤ c.index) : c.next = .ok (none, c) := if_pos ended

theorem fold_succ (step : β → α → β) (count : Nat) (acc : β) (c : Cursor r α) :
    c.fold step (count + 1) acc = (do
      match ← c.next with
      | (none, c) => return (acc, c)
      | (some x, c) => c.fold step count (step acc x)) := rfl

theorem foldl_last (xs : List α) : xs.foldl (fun _ x => some x) none = xs.getLast? := by
  rw [List.foldl_eq_foldr_reverse, ← List.head?_reverse]
  cases xs.reverse <;> rfl

namespace Sound

/-- What can be read without a walk is never nothing, as long as anything is left. -/
theorem ahead_coming (sound : c.Sound) (more : c.index < c.trie.length) :
    ∃ n, aheadBy Cursor.fetch c = .ok (c.coming.take (n + 1)) := by
  obtain ⟨n, kept⟩ := sound.leaf
  rw [aheadBy]
  cases used : c.leaf.isEmpty with
  | true =>
    have bound := Nat.mod_lt (c.trie.offset + c.index) r.size_pos
    obtain ⟨k, count⟩ : ∃ k, r.size - (c.trie.offset + c.index) % r.size = k + 1 :=
      Nat.exists_eq_add_one_of_ne_zero (by omega)
    exact ⟨k, count ▸ fetch_coming sound.accepted more⟩
  | false =>
    cases n with
    | zero => simp [kept] at used
    | succ n => exact ⟨n, congrArg Except.ok kept⟩

/-- One reading step gives the next element, if there is one, and leaves the others. -/
theorem next (sound : c.Sound) :
    ∃ d, c.next = .ok (c.coming.head?, d) ∧ d.Sound ∧ d.coming = c.coming.tail := by
  have count := length_coming sound.accepted
  rw [remaining] at count
  by_cases more : c.index < c.trie.length
  · obtain ⟨n, stretch⟩ := sound.ahead_coming more
    obtain ⟨x, rest, split⟩ := List.exists_cons_of_length_pos (by omega : 0 < c.coming.length)
    have behind : c.trie.toList.drop (c.index + 1) = rest := by
      rw [← List.tail_drop]
      exact congrArg List.tail split
    rw [Cursor.next, nextBy, if_neg (Nat.not_le.mpr more), stretch, split]
    exact ⟨_, rfl, ⟨sound.accepted, n, congrArg (List.take n) behind.symm⟩, behind⟩
  · have ended : c.coming = [] := List.length_eq_zero_iff.mp (by omega)
    exact ⟨c, by rw [next_end (Nat.not_lt.mp more), ended, List.head?_nil], sound, by simp [ended]⟩

/-- A reading of `count` elements feeds them to the step function in order, or as many as there are. -/
theorem fold (sound : c.Sound) (step : β → α → β) (count : Nat) (acc : β) :
    ∃ d, c.fold step count acc = .ok ((c.coming.take count).foldl step acc, d) ∧ d.Sound ∧
      d.coming = c.coming.drop count := by
  induction count generalizing c acc with
  | zero => exact ⟨c, rfl, sound, rfl⟩
  | succ count ih =>
    obtain ⟨d, next, d_sound, tail⟩ := sound.next
    rw [fold_succ, next]
    cases coming : c.coming with
    | nil => exact ⟨d, rfl, d_sound, by simp [tail, coming]⟩
    | cons x rest =>
      have others := ih d_sound (step acc x)
      rw [tail, coming, List.tail_cons] at others
      exact others

theorem take (sound : c.Sound) (count : Nat) :
    ∃ d, c.take count = .ok (c.coming.take count, d) ∧ d.Sound ∧ d.coming = c.coming.drop count := by
  obtain ⟨d, fold, d_sound, rest⟩ := sound.fold Array.push count #[]
  refine ⟨d, bind_eq_ok_iff.mpr ⟨_, fold, ?_⟩, d_sound, rest⟩
  simp [pure, Except.pure]

theorem rest (sound : c.Sound) :
    ∃ d, c.rest = .ok (c.coming, d) ∧ d.Sound ∧ d.coming = [] := by
  have all := length_coming sound.accepted
  obtain ⟨d, taken, d_sound, coming⟩ := sound.take c.remaining
  rw [← all, List.take_length] at taken
  rw [← all, List.drop_length] at coming
  exact ⟨d, by rw [Cursor.rest, ← all, taken], d_sound, coming⟩

theorem nth (sound : c.Sound) (count : Nat) :
    ∃ d, c.nth count = .ok (c.coming[count]?, d) ∧ d.Sound ∧ d.coming = c.coming.drop (count + 1) := by
  obtain ⟨e, fold, e_sound, rest⟩ := sound.fold (fun _ _ => ()) count ()
  obtain ⟨d, next, d_sound, tail⟩ := e_sound.next
  rw [rest, List.head?_drop] at next
  rw [rest, List.tail_drop] at tail
  exact ⟨d, bind_eq_ok_iff.mpr ⟨_, fold, next⟩, d_sound, tail⟩

theorem count (sound : c.Sound) : c.count = .ok c.coming.length := by
  obtain ⟨d, fold, -⟩ := sound.fold (fun n _ => n + 1) c.remaining 0
  rw [← length_coming sound.accepted, List.take_length] at fold
  refine bind_eq_ok_iff.mpr ⟨_, length_coming sound.accepted ▸ fold, ?_⟩
  simp [pure, Except.pure]

theorem last? (sound : c.Sound) : c.last? = .ok c.coming.getLast? := by
  obtain ⟨d, fold, -⟩ := sound.fold (fun _ x => some x) c.remaining none
  rw [← length_coming sound.accepted, List.take_length] at fold
  refine bind_eq_ok_iff.mpr ⟨_, length_coming sound.accepted ▸ fold, ?_⟩
  rw [foldl_last]
  rfl

end Sound

end Cursor

/-- Reading an accepted trie to the end gives the elements of its tree. -/
theorem Trie.elements_toList (accepted : t.Accepted) : t.elements = .ok t.toList := by
  obtain ⟨d, rest, -⟩ := Cursor.Sound.rest (c := t.cursor) ⟨accepted, 0, rfl⟩
  exact bind_eq_ok_iff.mpr ⟨_, rest, rfl⟩

end DigitTrie
