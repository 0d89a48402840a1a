/-!
Texts in double quotes. A character that may not stand for itself is written as an escape, and which
characters these are is up to the form of writing: `shown` for people, `json` for programs. Which
characters can be printed is for a table to say, and tables grow with each edition; so `shown` works
with any table.
-/
namespace DigitTrie.Quoted

abbrev Escapes := Char → Option (List Char)

structure Glyphs where
  /-- The character is drawn into the one before it, as an accent is. -/
  combines : Char → Bool
  /-- The character can be seen: it is assigned, and it is no control, format or separator, unless
  it is the blank. -/
  printable : Char → Bool

def common : Escapes
  | '\"' => some ['\\', '\"']
  | '\\' => some ['\\', '\\']
  | '\n' => some ['\\', 'n']
  | '\r' => some ['\\', 'r']
  | '\t' => some ['\\', 't']
  | _ => none

/-- Besides the common escapes, the character zero is written as a digit, and what would not be seen
as a character of its own is written by its code. -/
def shown (glyphs : Glyphs) : Escapes := fun c =>
  match common c with
  | some escape => some escape
  | none =>
    if c = '\x00' then some ['\\', '0']
    else if glyphs.combines c || !glyphs.printable c then
      some ('\\' :: 'u' :: '\x7b' :: (Nat.toDigits 16 c.toNat ++ ['\x7d']))
    else none

def hexPair (n : Nat) : List Char := [Nat.digitChar (n / 16), Nat.digitChar (n % 16)]

/-- Every control character below the blank is escaped: by its letter if it has one, by its code
otherwise. -/
def json : Escapes := fun c =>
  match common c with
  | some escape => some escape
  | none =>
    if c = '\x08' then some ['\\', 'b']
    else if c = '\x0c' then some ['\\', 'f']
    else if c.toNat < 0x20 then some ('\\' :: 'u' :: '0' :: '0' :: hexPair c.toNat)
    else none

def escape (escapes : Escapes) (cs : List Char) : List Char :=
  cs.flatMap fun c => (escapes c).getD [c]

def quote (escapes : Escapes) (s : String) : String :=
  String.ofList ('\"' :: (escape escapes s.toList ++ ['\"']))

end DigitTrie.Quoted
