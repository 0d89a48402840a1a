import DigitTrie.Trie.Basic

/-!
Reading the elements of a trie in order. A cursor keeps what is left of the leaf it reads from, so it
walks down from the root only once for each leaf. Reading gives the cursor for what is left; the old
cursor stays good, so a copy needs nothing but its name. How a leaf is fetched is a parameter of the
reading steps, so that what they fetch can be watched.
-/
namespace DigitTrie

variable {r : Radix} {α β : Type}

structure Cursor (r : Radix) (α : Type) where
  trie : Trie r α
  /-- The elements of the current leaf that are still to come. -/
  leaf : List α
  /-- The index of the next element. -/
  index : Nat
deriving DecidableEq, Repr

/-- A cursor before the element with index `i`, or at the end if there is none. -/
def Trie.cursorAt (t : Trie r α) (i : Nat) : Cursor r α := ⟨t, [], min i t.length⟩

def Trie.cursor (t : Trie r α) : Cursor r α := ⟨t, [], 0⟩

namespace Cursor

def remaining (c : Cursor r α) : Nat := c.trie.length - c.index

/-- What the leaf of the next element holds from that element on, cut at the end of the trie. -/
def fetch (c : Cursor r α) : Except Fault (List α) := do
  let index ← Word.add c.trie.offset c.index
  match ← c.trie.findLeaf index with
  | none => throw (.noLeaf index)
  | some found =>
    let start ← Word.sub (r.lastDigit index) found.start
    let stop := min found.slots.length (← Word.add start c.remaining)
    ensure (start ≤ stop) .unusedSlot
    return (found.slots.take stop).drop start

section

variable {m : Type → Type} [Monad m] (fetching : Cursor r α → m (List α))

/-- The elements that can be read without walking to yet another leaf. -/
@[specialize] def aheadBy (c : Cursor r α) : m (List α) :=
  if c.leaf.isEmpty then fetching c else pure c.leaf

@[specialize] def nextBy (c : Cursor r α) : m (Option α × Cursor r α) :=
  if c.trie.length ≤ c.index then pure (none, c)
  else do
    match ← aheadBy fetching c with
    | [] => return (none, c)
    | x :: rest => return (some x, { c with leaf := rest, index := c.index + 1 })

/-- Feeds the next `count` elements to `step`, or as many as there are. -/
@[specialize] def foldBy (step : β → α → β) (count : Nat) (acc : β) (c : Cursor r α) :
    m (β × Cursor r α) :=
  match count with
  | 0 => pure (acc, c)
  | count + 1 => do
    match ← nextBy fetching c with
    | (none, c) => return (acc, c)
    | (some x, c) => foldBy step count (step acc x) c

end

def next (c : Cursor r α) : Except Fault (Option α × Cursor r α) := nextBy fetch c

def fold (step : β → α → β) (count : Nat) (acc : β) (c : Cursor r α) :
    Except Fault (β × Cursor r α) := foldBy fetch step count acc c

def take (c : Cursor r α) (count : Nat) : Except Fault (List α × Cursor r α) := do
  let (xs, c) ← c.fold Array.push count #[]
  return (xs.toList, c)

def rest (c : Cursor r α) : Except Fault (List α × Cursor r α) := c.take c.remaining

def nth (c : Cursor r α) (count : Nat) : Except Fault (Option α × Cursor r α) := do
  let (_, c) ← c.fold (fun _ _ => ()) count ()
  c.next

def count (c : Cursor r α) : Except Fault Nat := do
  return (← c.fold (fun n _ => n + 1) c.remaining 0).1

def last? (c : Cursor r α) : Except Fault (Option α) := do
  return (← c.fold (fun _ x => some x) c.remaining none).1

def sizeHint (c : Cursor r α) : Nat × Option Nat := (c.remaining, some c.remaining)

end Cursor

def Trie.elements (t : Trie r α) : Except Fault (List α) := do
  return (← t.cursor.rest).1

end DigitTrie
