import DigitTrie.Trie.Push
import DigitTrie.Trie.Window

/-!
The changes a user can ask for, as data. `Op.apply` carries one out on a trie, `Op.applyToList` says
what it means for the sequence of elements, and `Trie.run` carries out several in order.
-/
namespace DigitTrie

variable {r : Radix} {α : Type}

inductive Op (α : Type) where
  /-- Start again from the empty trie. -/
  | clear
  /-- Start again from a single element. -/
  | unit (x : α)
  /-- Start again from a whole sequence. -/
  | ofList (xs : List α)
  | extend (xs : List α)
  | pushBack (x : α)
  | pushFront (x : α)
  | set (i : Nat) (x : α)
  | drop (n : Nat)
  | take (n : Nat)
  | slice (start stop : Nat)
deriving DecidableEq, Repr

namespace Op

def apply (op : Op α) (t : Trie r α) : Except Fault (Trie r α × List Growth) :=
  match op with
  | .clear => .ok (.empty, [])
  | .unit x => .ok (.unit x, [])
  | .ofList xs => return (← Trie.ofList xs, [])
  | .extend xs => t.extend xs
  | .pushBack x => do
    let (t, growth) ← t.pushBack x
    return (t, growth.toList)
  | .pushFront x => do
    let (t, growth) ← t.pushFront x
    return (t, growth.toList)
  | .set i x => return (← t.update i x, [])
  | .drop n => return (← t.drop n, [])
  | .take n => return (← t.take n, [])
  | .slice start stop => return (← t.slice start stop, [])

def applyToList (op : Op α) (xs : List α) : List α :=
  match op with
  | .clear => []
  | .unit x => [x]
  | .ofList ys => ys
  | .extend ys => xs ++ ys
  | .pushBack x => xs ++ [x]
  | .pushFront x => x :: xs
  | .set i x => xs.set i x
  | .drop n => xs.drop n
  | .take n => xs.take n
  | .slice start stop => (xs.take stop).drop start

end Op

def Trie.run (t : Trie r α) (ops : List (Op α)) : Except Fault (Trie r α × List Growth) :=
  ops.foldlM (fun (t, growths) op => do
    let (t, new) ← op.apply t
    return (t, growths ++ new)) (t, [])

end DigitTrie
