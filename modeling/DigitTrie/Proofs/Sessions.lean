import DigitTrie.Cursor.Session
import DigitTrie.Proofs.Reading

/-! Cursors are lists. A session on an accepted trie gets the replies that it would get if each cursor were
the plain list of the elements it has still to give: wherever the leaves begin and end, whichever cursor is
asked, and wherever one cursor was made from another. -/
namespace DigitTrie

variable {r : Radix} {α : Type} {t : Trie r α} {c d : Cursor r α}

namespace Session

def serveLists (s : List (List α)) (i : Nat) (request : Request) : Reply α × List (List α) :=
  match s[i]? with
  | none => (.noCursor, s)
  | some xs =>
    match request with
    | .next => (.element xs.head?, s.set i xs.tail)
    | .nth count => (.element xs[count]?, s.set i (xs.drop (count + 1)))
    | .take count => (.elements (xs.take count), s.set i (xs.drop count))
    | .rest => (.elements xs, s.set i [])
    | .count => (.number xs.length, s)
    | .last => (.element xs.getLast?, s)
    | .remaining => (.number xs.length, s)
    | .sizeHint => (.bounds xs.length (some xs.length), s)
    | .fork => (.number s.length, s ++ [xs])

def listReplies (s : List (List α)) : List (Nat × Request) → List (Reply α)
  | [] => []
  | (i, request) :: rest =>
    let (reply, s) := serveLists s i request
    reply :: listReplies s rest

variable {s : Session r α}

theorem sound_set (sound : ∀ c ∈ s, c.Sound) (d_sound : d.Sound) (i : Nat) : ∀ c ∈ s.set i d, c.Sound := by
  intro c member
  rcases List.mem_or_eq_of_mem_set member with old | rfl
  · exact sound c old
  · exact d_sound

/-- One request: the cursors reply as the lists do, and what they have still to give are the lists that are
left. -/
theorem serve_coming (sound : ∀ c ∈ s, c.Sound) (i : Nat) (request : Request) :
    ∃ later, s.serve i request = .ok ((serveLists (s.map Cursor.coming) i request).1, later) ∧
      (∀ c ∈ later, c.Sound) ∧
      later.map Cursor.coming = (serveLists (s.map Cursor.coming) i request).2 := by
  rw [serve, serveLists, List.getElem?_map]
  cases found : s[i]? with
  | none => exact ⟨s, rfl, sound, rfl⟩
  | some c =>
    have c_sound := sound c (List.mem_of_getElem? found)
    have count := Cursor.length_coming c_sound.accepted
    cases request with
    | next =>
      obtain ⟨d, next, d_sound, tail⟩ := c_sound.next
      exact ⟨_, bind_eq_ok_iff.mpr ⟨_, next, rfl⟩, sound_set sound d_sound i, by simp [List.map_set, tail]⟩
    | nth n =>
      obtain ⟨d, nth, d_sound, rest⟩ := c_sound.nth n
      exact ⟨_, bind_eq_ok_iff.mpr ⟨_, nth, rfl⟩, sound_set sound d_sound i, by simp [List.map_set, rest]⟩
    | take n =>
      obtain ⟨d, taken, d_sound, rest⟩ := c_sound.take n
      exact ⟨_, bind_eq_ok_iff.mpr ⟨_, taken, rfl⟩, sound_set sound d_sound i, by simp [List.map_set, rest]⟩
    | rest =>
      obtain ⟨d, all, d_sound, rest⟩ := c_sound.rest
      exact ⟨_, bind_eq_ok_iff.mpr ⟨_, all, rfl⟩, sound_set sound d_sound i, by simp [List.map_set, rest]⟩
    | count => exact ⟨s, bind_eq_ok_iff.mpr ⟨_, c_sound.count, rfl⟩, sound, rfl⟩
    | last => exact ⟨s, bind_eq_ok_iff.mpr ⟨_, c_sound.last?, rfl⟩, sound, rfl⟩
    | remaining => exact ⟨s, by simp [count, pure, Except.pure], sound, rfl⟩
    | sizeHint => exact ⟨s, by simp [count, Cursor.sizeHint, pure, Except.pure], sound, rfl⟩
    | fork =>
      refine ⟨s ++ [c], by simp [pure, Except.pure], fun e member => ?_, by simp⟩
      rcases List.mem_append.mp member with old | new
      · exact sound e old
      · exact List.mem_singleton.mp new ▸ c_sound

/-- Any requests, in any order, to any of the cursors. -/
theorem replies_coming (sound : ∀ c ∈ s, c.Sound) (requests : List (Nat × Request)) :
    s.replies requests = .ok (listReplies (s.map Cursor.coming) requests) := by
  induction requests generalizing s with
  | nil => rfl
  | cons asked rest ih =>
    obtain ⟨i, request⟩ := asked
    obtain ⟨later, served, later_sound, lists⟩ := serve_coming sound i request
    have others := ih later_sound
    rw [replies, bind_eq_ok_iff]
    refine ⟨_, served, bind_eq_ok_iff.mpr ⟨_, others, ?_⟩⟩
    simp [listReplies, lists, pure, Except.pure]

/-- A list that is asked for nothing but its next element gives all of them, and then none any more. -/
theorem listReplies_next (xs : List α) (n : Nat) :
    listReplies [xs] (List.replicate n (0, .next)) = (List.range n).map fun j => .element xs[j]? := by
  induction n generalizing xs with
  | zero => rfl
  | succ n ih =>
    rw [List.replicate_succ, List.range_succ_eq_map]
    simp only [listReplies, serveLists, List.getElem?_cons_zero, List.set_cons_zero, ih, List.map_cons,
      List.map_map, List.head?_eq_getElem?]
    simp [Function.comp_def]

end Session

namespace Trie

/-- Reading an accepted trie through any number of cursors, from any index on, is reading lists: no request
faults, and the reply is that of the elements without the first `i`. In particular the next elements come
one by one, across the ends of leaves, and after the last of them none comes any more; and to begin at the
first element is to begin at index zero. -/
theorem cursors_are_lists (accepted : t.Accepted) :
    (∀ (i : Nat) (requests : List (Nat × Request)), Session.replies [t.cursorAt i] requests =
      .ok (Session.listReplies [t.toList.drop (min i t.length)] requests)) ∧
    (∀ i n, Session.replies [t.cursorAt i] (List.replicate n (0, .next)) =
      .ok ((List.range n).map fun j => .element t.toList[i + j]?)) ∧
    t.cursor = t.cursorAt 0 := by
  have lists (i : Nat) (requests : List (Nat × Request)) : Session.replies [t.cursorAt i] requests =
      .ok (Session.listReplies [t.toList.drop (min i t.length)] requests) := by
    refine Session.replies_coming (s := [t.cursorAt i]) (fun c member => ?_) requests
    rw [List.mem_singleton.mp member]
    exact Cursor.sound_cursorAt accepted i
  refine ⟨lists, fun i n => ?_, ?_⟩
  · rw [lists, Session.listReplies_next]
    refine congrArg Except.ok (List.map_congr_left fun j _ => ?_)
    have count := length_toList accepted
    rw [List.getElem?_drop]
    by_cases inside : i ≤ t.length
    · rw [Nat.min_eq_left inside]
    · rw [List.getElem?_eq_none (by omega), List.getElem?_eq_none (by omega)]
  · rw [cursorAt, Nat.zero_min]
    rfl

/-- Two cursors over a window that begins and ends inside of a leaf; the second is made from the first in
the middle of a leaf. -/
theorem cursors_are_lists_mid_leaf :
    (filled (fun p => (p : Int)) 2 3 4 : Trie Radix.binary Int).Accepted ∧
      Session.replies [(filled (fun p => (p : Int)) 2 3 4 : Trie Radix.binary Int).cursorAt 1]
          [(0, .next), (0, .fork), (1, .take 5), (0, .remaining), (1, .next), (0, .nth 1), (0, .next)] =
        .ok [.element (some 4), .number 1, .elements [5, 6], .number 2, .element none, .element (some 6),
          .element none] := by
  have accepted : (filled (fun p => (p : Int)) 2 3 4 : Trie Radix.binary Int).Accepted :=
    filled_accepted ⟨by decide, by decide, by decide⟩
  exact ⟨accepted, (cursors_are_lists accepted).1 1 _⟩

end Trie

end DigitTrie
