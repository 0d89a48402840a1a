import DigitTrie.Quoted

/-!
What elements have to offer to tries that are hashed or written for programs. Storing and moving
elements asks nothing of them, and how they are shown to people is for the reader to say.
-/
namespace DigitTrie

inductive HashInput where
  | number (value : Int)
  | bytes (value : List UInt8)
deriving DecidableEq, Repr

class Element (α : Type) where
  /-- What the element feeds to a hasher, in order. -/
  hashInputs : α → List HashInput
  /-- The element as it is written for programs. -/
  json : α → String

instance : Element Int where
  hashInputs n := [.number n]
  json n := toString n

/-- A text feeds its bytes and then a number that no byte of a text has, so that the end of one text
cannot be taken for the start of the next. -/
instance : Element String where
  hashInputs s := [.bytes s.toByteArray.data.toList, .number 255]
  json s := Quoted.quote Quoted.json s

end DigitTrie
