import DigitTrie.Radix

/-!
The slots of one node. A node stores them in a chunk: an array of fixed capacity, as many slots as the
radix allows, of which any number may be in use, from the first one on. The chunk is not part of this
library, so its used slots stand here as a list, and four of its rules are taken over with it. Reading
and writing go to a used slot only. A cut may be made at any place up to the number of used slots, that
number included, and is a fault beyond it. A chunk that is full takes no further slot, at neither end.
And a slot that is cut off is gone: nothing that is done to the chunk later brings it back.
-/
namespace DigitTrie.Slots

variable {α : Type}

/-- The slot for `digit` in a node that starts at digit `start`, if it is in use. -/
def at? (slots : List α) (start digit : Nat) : Option α :=
  if digit < start then none else slots[digit - start]?

def get (slots : List α) (slot : Nat) : Except Fault α :=
  match slots[slot]? with
  | some x => .ok x
  | none => .error .unusedSlot

def set (slots : List α) (slot : Nat) (x : α) : Except Fault (List α) :=
  if slot < slots.length then .ok (slots.set slot x) else .error .unusedSlot

def dropFirst (slots : List α) (count : Nat) : Except Fault (List α) :=
  if count ≤ slots.length then .ok (slots.drop count) else .error .unusedSlot

def keepFirst (slots : List α) (count : Nat) : Except Fault (List α) :=
  if count ≤ slots.length then .ok (slots.take count) else .error .unusedSlot

def pushBack (r : Radix) (slots : List α) (x : α) : Except Fault (List α) :=
  if slots.length < r.size then .ok (slots ++ [x]) else .error .fullNode

def pushFront (r : Radix) (slots : List α) (x : α) : Except Fault (List α) :=
  if slots.length < r.size then .ok (x :: slots) else .error .fullNode

variable {r : Radix} {slots result : List α} {slot count : Nat} {x : α}

theorem at?_of_le {start digit : Nat} (used : start ≤ digit) :
    at? slots start digit = slots[digit - start]? := if_neg (Nat.not_lt.mpr used)

@[simp] theorem get_eq_ok_iff : get slots slot = .ok x ↔ slots[slot]? = some x := by
  unfold get
  split <;> simp_all

@[simp] theorem set_eq_ok_iff :
    set slots slot x = .ok result ↔ slot < slots.length ∧ slots.set slot x = result := by
  unfold set
  split <;> simp [*]

@[simp] theorem dropFirst_eq_ok_iff :
    dropFirst slots count = .ok result ↔ count ≤ slots.length ∧ slots.drop count = result := by
  unfold dropFirst
  split <;> simp [*]

@[simp] theorem keepFirst_eq_ok_iff :
    keepFirst slots count = .ok result ↔ count ≤ slots.length ∧ slots.take count = result := by
  unfold keepFirst
  split <;> simp [*]

@[simp] theorem pushBack_eq_ok_iff :
    pushBack r slots x = .ok result ↔ slots.length < r.size ∧ slots ++ [x] = result := by
  unfold pushBack
  split <;> simp [*]

@[simp] theorem pushFront_eq_ok_iff :
    pushFront r slots x = .ok result ↔ slots.length < r.size ∧ x :: slots = result := by
  unfold pushFront
  split <;> simp [*]

variable {start digit d : Nat}

theorem at?_eq_some_iff : at? slots start digit = some x ↔ start ≤ digit ∧ slots[digit - start]? = some x := by
  unfold at?
  split <;> simp <;> omega

theorem at?_add (slots : List α) (start slot : Nat) : at? slots start (start + slot) = slots[slot]? := by
  rw [at?_of_le (Nat.le_add_right ..), Nat.add_sub_cancel_left]

@[simp] theorem at?_nil : at? ([] : List α) start digit = none := by
  simp [at?]

/-! What stands at a digit after the slots of a node were changed at the slot of another one. -/

theorem at?_set (inside : slot < slots.length) :
    at? (slots.set slot x) start d = if d = start + slot then some x else at? slots start d := by
  unfold at?
  by_cases before : d < start
  · rw [if_pos before, if_pos before, if_neg (by omega)]
  · rw [if_neg before, if_neg before, List.getElem?_set]
    by_cases here : d = start + slot
    · rw [if_pos (by omega), if_pos here, if_pos inside]
    · rw [if_neg (by omega), if_neg here]

theorem at?_append :
    at? (slots ++ [x]) start d = if d = start + slots.length then some x else at? slots start d := by
  unfold at?
  by_cases before : d < start
  · rw [if_pos before, if_pos before, if_neg (by omega)]
  · rw [if_neg before, if_neg before]
    by_cases here : d = start + slots.length
    · rw [if_pos here, here, Nat.add_sub_cancel_left, List.getElem?_concat_length]
    · rw [if_neg here]
      by_cases inside : d - start < slots.length
      · rw [List.getElem?_append_left inside]
      · rw [List.getElem?_eq_none (by simp; omega), List.getElem?_eq_none (by omega)]

theorem at?_cons : at? (x :: slots) start d = if d = start then some x else at? slots (start + 1) d := by
  unfold at?
  by_cases here : d = start
  · simp [here]
  · rw [if_neg here]
    by_cases before : d < start
    · rw [if_pos before, if_pos (by omega)]
    · have next : d - start = d - (start + 1) + 1 := by omega
      rw [if_neg before, if_neg (by omega), next, List.getElem?_cons_succ]

theorem at?_drop (le : start ≤ digit) :
    at? (slots.drop (digit - start)) digit d = if digit ≤ d then at? slots start d else none := by
  unfold at?
  by_cases before : d < digit
  · rw [if_pos before, if_neg (by omega)]
  · rw [if_neg before, if_pos (by omega), if_neg (by omega), List.getElem?_drop]
    congr 1
    omega

theorem at?_take (le : start ≤ digit) :
    at? (slots.take (digit - start + 1)) start d = if d ≤ digit then at? slots start d else none := by
  unfold at?
  by_cases before : d < start
  · simp [before]
  · rw [if_neg before, if_neg before, List.getElem?_take]
    by_cases inside : d ≤ digit
    · rw [if_pos inside, if_pos (by omega)]
    · rw [if_neg inside, if_neg (by omega)]

end DigitTrie.Slots
