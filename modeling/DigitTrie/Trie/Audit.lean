import DigitTrie.Trie.Basic
import DigitTrie.Node.Audit

/-!
Checking a whole trie. An accepted trie either is empty in every field, or has a tree that stores an
element at each physical index of its window and nowhere else.
-/
namespace DigitTrie.Trie

variable {r : Radix} {α : Type}

/-- Checks that the fields fit together; the first thing that is off is the fault. -/
def audit (t : Trie r α) : Except Fault Unit :=
  match t.root with
  | none => do
    ensure (t.length = 0) (.defect (.lengthWithoutRoot t.length))
    ensure (t.offset = 0) (.defect (.offsetWithoutRoot t.offset))
    ensure (t.level = 0) (.defect (.levelWithoutRoot t.level))
  | some root => do
    ensure (t.length ≠ 0) (.defect .rootWithoutLength)
    ensure (t.level % r.bits = 0) (.defect (.unalignedLevel (t.level % r.bits)))
    let stop ← Word.add t.offset t.length
    ensure (stop ≤ (← r.capacity t.level)) (.defect .windowBeyondCapacity)
    root.auditRoot r t.level t.offset t.length

def Accepted (t : Trie r α) : Prop := t.audit = .ok ()

end DigitTrie.Trie
