import DigitTrie.Cursor
import DigitTrie.Element

/-!
Tries in writing. `shown` and `listing` are for people, on one line and on one line for each element;
`serialize` and `Serial.json` are for programs. Like equality they see the elements only; what a single
element looks like to people is left to `render`.
-/
namespace DigitTrie

variable {r : Radix} {α : Type}

def bracketed (separator : String) (items : List String) : String :=
  "[" ++ separator.intercalate items ++ "]"

def showElements (render : α → String) (xs : List α) : String := bracketed ", " (xs.map render)

/-- The characters of a text with four blanks before each line; `fresh` says whether a line begins
here. A line begins with its first character, so behind the last line break there is none. -/
def indent (fresh : Bool) : List Char → List Char
  | [] => []
  | c :: rest =>
    if fresh then ' ' :: ' ' :: ' ' :: ' ' :: c :: indent (c == '\n') rest
    else c :: indent (c == '\n') rest

def listElements (render : α → String) (xs : List α) : String :=
  if xs.isEmpty then "[]"
  else
    let line (x : α) : String := String.ofList (indent true (render x ++ ",\n").toList)
    "[\n" ++ String.join (xs.map line) ++ "]"

/-- A sequence on its way out: the announced number of elements, and the elements. -/
structure Serial (α : Type) where
  announced : Nat
  items : List α
deriving DecidableEq, Repr

def Serial.json [Element α] (s : Serial α) : String :=
  bracketed "," (s.items.map Element.json)

namespace Trie

def shown (render : α → String) (t : Trie r α) : Except Fault String := do
  return showElements render (← t.elements)

def listing (render : α → String) (t : Trie r α) : Except Fault String := do
  return listElements render (← t.elements)

def serialize (t : Trie r α) : Except Fault (Serial α) := do
  return ⟨t.length, ← t.elements⟩

/-- The trie of a sequence that was read back. Whatever layout it had before is forgotten. -/
def deserialize (xs : List α) : Except Fault (Trie r α) := ofList xs

end Trie

def Cursor.shown (render : α → String) (c : Cursor r α) : Except Fault String := do
  let trie ← c.trie.shown render
  return "Iter \x7b trie: " ++ trie ++ ", leaf: Iter(" ++ showElements render c.leaf ++ "), index: " ++
    toString c.index ++ " \x7d"

end DigitTrie
