import DigitTrie.Trie.Equality
import DigitTrie.Trie.Text
import DigitTrie.Proofs.Reading

/-! What can be seen of a trie from outside. Comparing, hashing and writing all read the trie through cursors,
and two cursors that are read in step see nothing of where their leaves end; so whatever the layouts of two
accepted tries are, these views tell them apart by their elements only. -/
namespace DigitTrie

variable {r : Radix} {α : Type} {c d : Cursor r α} {t u : Trie r α} {xs ys : List α}

theorem Cursor.Sound.agree [DecidableEq α] (c_sound : c.Sound) (d_sound : d.Sound) {count : Nat}
    (all : c.coming.length = count) : c.agree count d = .ok (decide (c.coming = d.coming)) := by
  induction count generalizing c d with
  | zero =>
    obtain ⟨e, d_next, -⟩ := d_sound.next
    have ended : c.coming = [] := List.length_eq_zero_iff.mp all
    rw [Cursor.agree, d_next, ended]
    cases d.coming <;> simp [bind, Except.bind, pure, Except.pure]
  | succ count ih =>
    obtain ⟨c', c_next, c'_sound, c_tail⟩ := c_sound.next
    obtain ⟨d', d_next, d'_sound, d_tail⟩ := d_sound.next
    obtain ⟨x, xs, c_coming⟩ := List.exists_cons_of_length_eq_add_one all
    rw [c_coming] at c_next c_tail all ⊢
    rw [Cursor.agree, c_next, d_next]
    cases d_coming : d.coming with
    | nil => simp [bind, Except.bind, pure, Except.pure]
    | cons y ys =>
      rw [d_coming] at d_tail
      have rest := ih c'_sound d'_sound (by simpa [c_tail] using all)
      rw [c_tail, d_tail] at rest
      by_cases same : x = y
      · simpa [bind, Except.bind, same] using rest
      · simp [bind, Except.bind, pure, Except.pure, same]

namespace Trie

theorem equal_toList [DecidableEq α] (t_accepted : t.Accepted) (u_accepted : u.Accepted) :
    t.equal u = .ok (decide (t.toList = u.toList)) := by
  rw [equal]
  split
  · have count := length_toList t_accepted
    exact Cursor.Sound.agree (c := t.cursor) (d := u.cursor) ⟨t_accepted, 0, rfl⟩ ⟨u_accepted, 0, rfl⟩ count
  · rename_i lengths
    have differs : t.toList ≠ u.toList := fun same => lengths <| by
      rw [← length_toList t_accepted, same, length_toList u_accepted]
    simp [differs]

theorem differ_toList [DecidableEq α] (t_accepted : t.Accepted) (u_accepted : u.Accepted) :
    t.differ u = .ok (!decide (t.toList = u.toList)) :=
  bind_eq_ok_iff.mpr ⟨_, equal_toList t_accepted u_accepted, rfl⟩

end Trie

/-! Hashing. The length goes first, so it is enough that what one element feeds cannot be taken for what
another one feeds, even by a hasher that does not see where one value ends and the next one starts. -/

namespace HashInput

def stream (fed : List HashInput) : List Int :=
  fed.flatMap fun
    | .number n => [n]
    | .bytes bs => bs.map fun b => (b.toNat : Int)

@[simp] theorem stream_append (fed more : List HashInput) : stream (fed ++ more) = stream fed ++ stream more :=
  List.flatMap_append

end HashInput

/-- Two lists that are closed by a mark neither of them has, and what follows the mark. -/
theorem closed_inj {mark : α} {later others : List α} (xs_free : mark ∉ xs) (ys_free : mark ∉ ys)
    (same : xs ++ mark :: later = ys ++ mark :: others) : xs = ys ∧ later = others := by
  rcases List.append_eq_append_iff.mp same with ⟨more, rfl, rest⟩ | ⟨more, rfl, rest⟩
  · cases more with
    | nil => simpa using rest
    | cons y more =>
      obtain ⟨rfl, -⟩ := List.cons.inj rest
      simp at ys_free
  · cases more with
    | nil => simpa [eq_comm] using rest
    | cons x more =>
      obtain ⟨rfl, -⟩ := List.cons.inj rest
      simp at xs_free

/-- A character is encoded in bytes below 255: a first byte has a zero bit behind its leading ones, and every
other byte starts with a one and a zero. -/
theorem utf8_byte_lt {c : Char} {b : UInt8} (member : b ∈ String.utf8EncodeChar c) : b.toNat < 255 := by
  have low {n : Nat} (small : n < 255) : (UInt8.ofNat n).toNat < 255 :=
    Nat.lt_of_le_of_lt (Nat.mod_le n 256) small
  rw [String.utf8EncodeChar] at member
  split_ifs at member with one two three
  all_goals simp only [List.mem_cons, List.not_mem_nil, or_false] at member
  · exact member ▸ low (by omega)
  · rcases member with rfl | rfl <;> exact low (by omega)
  · rcases member with rfl | rfl | rfl <;> exact low (by omega)
  · rcases member with rfl | rfl | rfl | rfl <;> exact low (by omega)

theorem text_byte_lt {s : String} {b : UInt8} (member : b ∈ s.toByteArray.data.toList) : b.toNat < 255 := by
  rw [← String.utf8Encode_toList, List.utf8Encode, List.data_toByteArray] at member
  obtain ⟨c, -, encoded⟩ := List.mem_flatMap.mp member
  exact utf8_byte_lt encoded

namespace Element

/-- What an element feeds to a hasher tells which element it is and where it ends, whatever is fed
afterwards. -/
def Faithful (α : Type) [Element α] : Prop :=
  ∀ (x y : α) (later others : List Int),
    HashInput.stream (hashInputs x) ++ later = HashInput.stream (hashInputs y) ++ others →
      x = y ∧ later = others

theorem faithful_int : Faithful Int := by
  intro n m later others same
  simpa [hashInputs, HashInput.stream] using same

/-- No byte of a text is 255, so this number closes it. -/
theorem faithful_string : Faithful String := by
  intro s s' later others same
  have open_ended (s : String) : (255 : Int) ∉ s.toByteArray.data.toList.map fun b => (b.toNat : Int) := by
    intro marked
    obtain ⟨b, member, mark⟩ := List.mem_map.mp marked
    have low := text_byte_lt member
    omega
  obtain ⟨bytes, later⟩ := closed_inj (open_ended s) (open_ended s')
    (by simpa [hashInputs, HashInput.stream] using same)
  have injective : Function.Injective fun b : UInt8 => (b.toNat : Int) := fun b b' equal =>
    UInt8.toNat_inj.mp (Int.ofNat.inj equal)
  have arrays := Array.toList_inj.mp (injective.list_map bytes)
  exact ⟨String.toByteArray_inj.mp (ByteArray.ext arrays), later⟩

variable [Element α]

theorem Faithful.flatMap_injective (faithful : Faithful α) (lengths : xs.length = ys.length)
    (same : HashInput.stream (xs.flatMap hashInputs) = HashInput.stream (ys.flatMap hashInputs)) :
    xs = ys := by
  induction xs generalizing ys with
  | nil => exact (List.length_eq_zero_iff.mp lengths.symm).symm
  | cons x xs ih =>
    obtain ⟨y, ys, rfl⟩ := List.exists_cons_of_length_eq_add_one lengths.symm
    obtain ⟨rfl, later⟩ := faithful x y _ _ (by simpa using same)
    rw [ih (by simpa using lengths) later]

end Element

namespace Trie

theorem serialize_toList (accepted : t.Accepted) : t.serialize = .ok ⟨t.length, t.toList⟩ :=
  bind_eq_ok_iff.mpr ⟨_, elements_toList accepted, rfl⟩

theorem shown_toList (accepted : t.Accepted) (render : α → String) :
    t.shown render = .ok (showElements render t.toList) :=
  bind_eq_ok_iff.mpr ⟨_, elements_toList accepted, rfl⟩

theorem listing_toList (accepted : t.Accepted) (render : α → String) :
    t.listing render = .ok (listElements render t.toList) :=
  bind_eq_ok_iff.mpr ⟨_, elements_toList accepted, rfl⟩

theorem serial_eq_iff (t_accepted : t.Accepted) (u_accepted : u.Accepted) :
    (⟨t.length, t.toList⟩ : Serial α) = ⟨u.length, u.toList⟩ ↔ t.toList = u.toList := by
  rw [← length_toList t_accepted, ← length_toList u_accepted]
  constructor
  · intro same
    exact congrArg Serial.items same
  · intro same
    rw [same]

variable [Element α]

theorem hashInputs_toList (accepted : t.Accepted) :
    t.hashInputs = .ok (.number t.length :: t.toList.flatMap Element.hashInputs) :=
  bind_eq_ok_iff.mpr ⟨_, elements_toList accepted, rfl⟩

theorem stream_eq_iff (faithful : Element.Faithful α) (t_accepted : t.Accepted) (u_accepted : u.Accepted) :
    HashInput.stream (.number t.length :: t.toList.flatMap Element.hashInputs) =
      HashInput.stream (.number u.length :: u.toList.flatMap Element.hashInputs) ↔ t.toList = u.toList := by
  have t_count := length_toList t_accepted
  have u_count := length_toList u_accepted
  constructor
  · intro same
    obtain ⟨lengths, fed⟩ := List.cons.inj same
    exact faithful.flatMap_injective (by omega) fed
  · intro same
    rw [← t_count, ← u_count, same]

theorem fed_eq_iff (faithful : Element.Faithful α) (t_accepted : t.Accepted) (u_accepted : u.Accepted) :
    HashInput.number t.length :: t.toList.flatMap Element.hashInputs =
      .number u.length :: u.toList.flatMap Element.hashInputs ↔ t.toList = u.toList := by
  constructor
  · intro same
    exact (stream_eq_iff faithful t_accepted u_accepted).mp (congrArg HashInput.stream same)
  · intro same
    rw [← length_toList t_accepted, ← length_toList u_accepted, same]

/-- All views of the two tries go through, and they see the elements only: equality, its negation, hashing
(by value or in one row of numbers) and serialization tell exactly whether these are the same, and what is
written for people is the same if they are, whatever an element looks like. -/
structure SeenAlike [DecidableEq α] (t u : Trie r α) : Prop where
  equal : t.equal u = .ok (decide (t.toList = u.toList))
  differ : t.differ u = .ok (!decide (t.toList = u.toList))
  hashed : ∃ fed fed', t.hashInputs = .ok fed ∧ u.hashInputs = .ok fed' ∧
    (fed = fed' ↔ t.toList = u.toList) ∧
    (HashInput.stream fed = HashInput.stream fed' ↔ t.toList = u.toList)
  shown : ∀ render : α → String, ∃ text text', t.shown render = .ok text ∧ u.shown render = .ok text' ∧
    (t.toList = u.toList → text = text')
  listed : ∀ render : α → String, ∃ text text', t.listing render = .ok text ∧
    u.listing render = .ok text' ∧ (t.toList = u.toList → text = text')
  serialized : ∃ s s', t.serialize = .ok s ∧ u.serialize = .ok s' ∧ (s = s' ↔ t.toList = u.toList)

theorem seenAlike [DecidableEq α] (faithful : Element.Faithful α) (t_accepted : t.Accepted)
    (u_accepted : u.Accepted) : t.SeenAlike u where
  equal := equal_toList t_accepted u_accepted
  differ := differ_toList t_accepted u_accepted
  hashed := ⟨_, _, hashInputs_toList t_accepted, hashInputs_toList u_accepted,
    fed_eq_iff faithful t_accepted u_accepted, stream_eq_iff faithful t_accepted u_accepted⟩
  shown render := ⟨_, _, shown_toList t_accepted render, shown_toList u_accepted render,
    congrArg (showElements render)⟩
  listed render := ⟨_, _, listing_toList t_accepted render, listing_toList u_accepted render,
    congrArg (listElements render)⟩
  serialized := ⟨_, _, serialize_toList t_accepted, serialize_toList u_accepted,
    serial_eq_iff t_accepted u_accepted⟩

/-- However two accepted tries of numbers, or of texts, are laid out: they are equal exactly if they have the
same elements, exactly then they feed the same to a hasher, and then they are written alike. -/
theorem views_see_elements (r : Radix) :
    (∀ t u : Trie r Int, t.Accepted → u.Accepted → t.SeenAlike u) ∧
    (∀ t u : Trie r String, t.Accepted → u.Accepted → t.SeenAlike u) :=
  ⟨fun _ _ t_accepted u_accepted => seenAlike Element.faithful_int t_accepted u_accepted,
    fun _ _ t_accepted u_accepted => seenAlike Element.faithful_string t_accepted u_accepted⟩

/-- The same three numbers, in a tree of two levels from index zero on and in a tree of three levels from
index three on: equal, and one hash input for both. And two texts that no form of writing leaves as they are,
in one leaf and in two: shown alike, whatever characters can be printed. -/
theorem views_see_elements_two_layouts :
    (filled (fun p => (p : Int)) 1 0 3 : Trie Radix.binary Int).Accepted ∧
      (filled (fun p => (p : Int) - 3) 2 3 3 : Trie Radix.binary Int).Accepted ∧
      (filled (fun p => (p : Int)) 1 0 3 : Trie Radix.binary Int).equal
        (filled (fun p => (p : Int) - 3) 2 3 3) = .ok true ∧
      (∃ fed, (filled (fun p => (p : Int)) 1 0 3 : Trie Radix.binary Int).hashInputs = .ok fed ∧
        (filled (fun p => (p : Int) - 3) 2 3 3 : Trie Radix.binary Int).hashInputs = .ok fed) ∧
      ∀ glyphs : Quoted.Glyphs,
        (filled (fun p => if p = 0 then "\x00" else "\"") 0 0 2 : Trie Radix.binary String).shown
          (Quoted.quote (Quoted.shown glyphs)) = .ok "[\"\\0\", \"\\\"\"]" ∧
        (filled (fun p => if p = 1 then "\x00" else "\"") 1 1 2 : Trie Radix.binary String).shown
          (Quoted.quote (Quoted.shown glyphs)) = .ok "[\"\\0\", \"\\\"\"]" := by
  have low : (filled (fun p => (p : Int)) 1 0 3 : Trie Radix.binary Int).Accepted :=
    filled_accepted ⟨by decide, by decide, by decide⟩
  have high : (filled (fun p => (p : Int) - 3) 2 3 3 : Trie Radix.binary Int).Accepted :=
    filled_accepted ⟨by decide, by decide, by decide⟩
  have one : (filled (fun p => if p = 0 then "\x00" else "\"") 0 0 2 : Trie Radix.binary String).Accepted :=
    filled_accepted ⟨by decide, by decide, by decide⟩
  have two : (filled (fun p => if p = 1 then "\x00" else "\"") 1 1 2 : Trie Radix.binary String).Accepted :=
    filled_accepted ⟨by decide, by decide, by decide⟩
  obtain ⟨numbers, texts⟩ := views_see_elements Radix.binary
  have alike := numbers _ _ low high
  obtain ⟨fed, fed', low_fed, high_fed, same, -⟩ := alike.hashed
  have elements : fed = fed' := same.mpr (by decide)
  refine ⟨low, high, alike.equal.trans rfl, ⟨fed, low_fed, elements ▸ high_fed⟩, fun glyphs => ?_⟩
  obtain ⟨text, text', one_shown, two_shown, written⟩ :=
    (texts _ _ one two).shown (Quoted.quote (Quoted.shown glyphs))
  have quoted : text = "[\"\\0\", \"\\\"\"]" := Except.ok.inj (one_shown.symm.trans (by cbv))
  rw [one_shown, two_shown, ← written (by decide), quoted]
  exact ⟨rfl, rfl⟩

end Trie

end DigitTrie
