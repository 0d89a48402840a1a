import DigitTrie.Cursor

/-!
Reading one trie through several cursors. A session numbers its cursors from zero on; each request goes
to one of them and leaves the others where they are. What only looks ahead, as counting does, also
leaves its own cursor in place.
-/
namespace DigitTrie

variable {r : Radix} {α : Type}

inductive Request where
  | next
  | nth (count : Nat)
  | take (count : Nat)
  | rest
  | count
  | last
  | remaining
  | sizeHint
  /-- A further cursor at the same place. -/
  | fork
deriving DecidableEq, Repr

inductive Reply (α : Type) where
  | element (x : Option α)
  | elements (xs : List α)
  | number (n : Nat)
  | bounds (low : Nat) (high : Option Nat)
  /-- The session has no cursor of that number. -/
  | noCursor
deriving DecidableEq, Repr

abbrev Session (r : Radix) (α : Type) := List (Cursor r α)

namespace Session

def serve (s : Session r α) (i : Nat) (request : Request) : Except Fault (Reply α × Session r α) :=
  match s[i]? with
  | none => .ok (.noCursor, s)
  | some c =>
    match request with
    | .next => do
      let (x, c) ← c.next
      return (.element x, s.set i c)
    | .nth count => do
      let (x, c) ← c.nth count
      return (.element x, s.set i c)
    | .take count => do
      let (xs, c) ← c.take count
      return (.elements xs, s.set i c)
    | .rest => do
      let (xs, c) ← c.rest
      return (.elements xs, s.set i c)
    | .count => return (.number (← c.count), s)
    | .last => return (.element (← c.last?), s)
    | .remaining => return (.number c.remaining, s)
    | .sizeHint => return (.bounds c.sizeHint.1 c.sizeHint.2, s)
    | .fork => return (.number s.length, s ++ [c])

def replies (s : Session r α) : List (Nat × Request) → Except Fault (List (Reply α))
  | [] => .ok []
  | (i, request) :: rest => do
    let (reply, s) ← s.serve i request
    return reply :: (← s.replies rest)

end Session

end DigitTrie
