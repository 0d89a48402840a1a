import DigitTrie.Trie.Basic

/-!
Adding elements at the ends. A trie whose window has reached the end of its tree first gets a level on
top: growing to the back keeps the old root as the first child of the new one, growing to the front
makes it the last child. Each added level is reported as a `Growth`.
-/
namespace DigitTrie

variable {r : Radix} {α : Type}

/-- A level was put on top of a trie with `length` elements; the root is now at `level`. -/
structure Growth where
  length : Nat
  level : Nat
deriving DecidableEq, Repr

namespace Growth

def severity : String := "TRACE"

def message (g : Growth) : String :=
  s!"trie of length {g.length} grew to depth shift {g.level}"

end Growth

namespace Trie

def isFullBack (t : Trie r α) : Except Fault Bool := do
  let stop ← Word.add (← Word.add t.offset t.length) 1
  return (← r.capacity t.level) < stop

def isFullFront (t : Trie r α) : Bool := t.offset == 0

/-- Puts a level on top, with all the new room behind the present elements. -/
def growBack (t : Trie r α) : Trie r α × Option Growth :=
  match t.root with
  | none => (t, none)
  | some root =>
    let level := t.level + r.bits
    ({ t with root := some (.parentOf root 0), level }, some ⟨t.length, level⟩)

/-- Puts a level on top of a trie at offset zero, with all the new room before the present
elements. -/
def growFront (t : Trie r α) : Except Fault (Trie r α × Option Growth) :=
  match t.root with
  | none => .ok (t, none)
  | some root => do
    let level := t.level + r.bits
    let offset ← branchSpan (r.size - 1) level
    return ({ t with root := some (.parentOf root (r.size - 1)), offset, level },
      some ⟨t.length, level⟩)

def roomBack (t : Trie r α) : Except Fault (Trie r α × Option Growth) := do
  return if ← t.isFullBack then t.growBack else (t, none)

def roomFront (t : Trie r α) : Except Fault (Trie r α × Option Growth) :=
  if t.isFullFront then t.growFront else .ok (t, none)

def pushBack (t : Trie r α) (x : α) : Except Fault (Trie r α × Option Growth) :=
  if t.isEmpty then .ok (unit x, none)
  else do
    let (roomy, growth) ← t.roomBack
    let edited ← roomy.edit (← Word.add roomy.offset roomy.length) (.pushBack x)
    return ({ edited with length := ← Word.add edited.length 1 }, growth)

def pushFront (t : Trie r α) (x : α) : Except Fault (Trie r α × Option Growth) :=
  if t.isEmpty then .ok (unit x, none)
  else do
    let (roomy, growth) ← t.roomFront
    let offset ← Word.sub roomy.offset 1
    let edited ← roomy.edit offset (.pushFront x)
    return ({ edited with offset, length := ← Word.add edited.length 1 }, growth)

def pushAll (push : Trie r α → α → Except Fault (Trie r α × Option Growth)) (t : Trie r α)
    (xs : List α) : Except Fault (Trie r α × List Growth) :=
  xs.foldlM (fun (t, growths) x => do
    let (t, growth) ← push t x
    return (t, growths ++ growth.toList)) (t, [])

/-- Adds a sequence behind the last element. An empty trie takes the packed form at once. -/
def extend (t : Trie r α) (xs : List α) : Except Fault (Trie r α × List Growth) :=
  if t.isEmpty then return (← ofList xs, []) else t.pushAll pushBack xs

end Trie

end DigitTrie
