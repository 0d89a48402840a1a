import DigitTrie.Fault
import DigitTrie.Word
import DigitTrie.Radix
import DigitTrie.Slots
import DigitTrie.Node.Basic
import DigitTrie.Node.Entries
import DigitTrie.Node.Lookup
import DigitTrie.Node.Edit
import DigitTrie.Node.Audit
import DigitTrie.Node.Packed
import DigitTrie.Trie.Basic
import DigitTrie.Trie.Audit
import DigitTrie.Trie.Push
import DigitTrie.Trie.Window
import DigitTrie.Trie.Op
import DigitTrie.Cursor
import DigitTrie.Quoted
import DigitTrie.Element
import DigitTrie.Trie.Equality
import DigitTrie.Trie.Text
import DigitTrie.Cursor.Session
import DigitTrie.Reflect
import DigitTrie.Proofs.Digits
import DigitTrie.Proofs.Numerals
import DigitTrie.Proofs.Filled
import DigitTrie.Proofs.FilledReading
import DigitTrie.Proofs.FilledEdits
import DigitTrie.Proofs.Shape
import DigitTrie.Proofs.FilledAudit
import DigitTrie.Proofs.Acceptance
import DigitTrie.Proofs.AuditedTree
import DigitTrie.Proofs.InOrder
import DigitTrie.Proofs.Steps
import DigitTrie.Proofs.StepLaw
import DigitTrie.Proofs.Pushes
import DigitTrie.Proofs.Packing
import DigitTrie.Proofs.PackedTree
import DigitTrie.Proofs.Reading
import DigitTrie.Proofs.KeptLeaf
import DigitTrie.Proofs.Meaning
import DigitTrie.Proofs.Runs
import DigitTrie.Proofs.Refinement
import DigitTrie.Proofs.Spread
import DigitTrie.Proofs.Height
import DigitTrie.Proofs.Canonical
import DigitTrie.Proofs.Collecting
import DigitTrie.Proofs.Sessions
import DigitTrie.Proofs.Reflection
import DigitTrie.Proofs.Places
import DigitTrie.Proofs.Regrowth
import DigitTrie.Proofs.Slicing
import DigitTrie.Proofs.Commuting
import DigitTrie.Proofs.Views
import DigitTrie.Proofs.RoundTrip
import DigitTrie.Proofs.EditEffect
import DigitTrie.Proofs.ShapedEdits
import DigitTrie.Proofs.GrowthRuns
import DigitTrie.Proofs.PointUpdate
