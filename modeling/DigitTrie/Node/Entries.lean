import DigitTrie.Node.Basic

/-!
Where a tree stores its elements. The path to an element spells its physical index: every node on the
way adds its digit, start plus slot, weighted with the level of the node. This reading of a tree knows
nothing of look-ups, so look-ups can be measured by it.
-/
namespace DigitTrie.Node

variable {α : Type}

mutual

/-- The elements of a subtree at `level` with their physical indices, from left to right; `base` is
the first physical index below the subtree's digit zero. -/
def entries (r : Radix) (node : Node α) (level base : Nat) : List (Nat × α) :=
  match node with
  | .leaf start slots => slots.mapIdx fun slot x => (base + (start + slot), x)
  | .interior start children => forestEntries r children level (base + start <<< level)

def forestEntries (r : Radix) (children : List (Node α)) (level base : Nat) : List (Nat × α) :=
  match children with
  | [] => []
  | child :: rest =>
    child.entries r (level - r.bits) base ++ forestEntries r rest level (base + 1 <<< level)

end

mutual

theorem map_snd_entries (r : Radix) (node : Node α) (level base : Nat) :
    (node.entries r level base).map Prod.snd = node.toList := by
  match node with
  | .leaf start slots =>
    simp only [entries, toList, List.mapIdx_eq_zipIdx_map, List.map_map, Function.comp_def]
    exact List.zipIdx_map_fst 0 slots
  | .interior start children =>
    simp only [entries, toList]
    exact map_snd_forestEntries r children level _

theorem map_snd_forestEntries (r : Radix) (children : List (Node α)) (level base : Nat) :
    (forestEntries r children level base).map Prod.snd = forestToList children := by
  match children with
  | [] => simp [forestEntries, forestToList]
  | child :: rest =>
    simp only [forestEntries, forestToList, List.map_append]
    rw [map_snd_entries r child, map_snd_forestEntries r rest]

end

end DigitTrie.Node
