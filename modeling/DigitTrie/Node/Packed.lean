import DigitTrie.Node.Basic

/-!
Building a tree from a whole sequence at once. The elements are cut into leaves, the leaves into
parents, and so on until one root is left; every node starts at digit zero, and all but the last node
of a level are full.
-/
namespace DigitTrie

variable {α : Type}

namespace Radix

/-- Cuts a sequence into runs that fill a node; only the last run may be shorter. -/
def chunks (r : Radix) (xs : List α) : List (List α) :=
  match xs with
  | [] => []
  | x :: rest => (x :: rest).take r.size :: r.chunks ((x :: rest).drop r.size)
termination_by xs.length
decreasing_by
  have := r.size_pos
  simp only [List.length_drop, List.length_cons]
  omega

variable (r : Radix)

theorem flatten_chunks (xs : List α) : (r.chunks xs).flatten = xs := by
  fun_induction chunks r xs with
  | case1 => rfl
  | case2 x rest ih => rw [List.flatten_cons, ih, List.take_append_drop]

theorem length_chunks_le (xs : List α) : (r.chunks xs).length ≤ xs.length := by
  have := r.size_pos
  fun_induction chunks r xs with
  | case1 => exact Nat.le_refl 0
  | case2 x rest ih =>
    simp only [List.length_cons, List.length_drop] at ih ⊢
    omega

/-- At least two elements make fewer runs than elements, since a run takes two if it can. -/
theorem length_chunks_lt (x y : α) (rest : List α) :
    (r.chunks (x :: y :: rest)).length < (x :: y :: rest).length := by
  have two := r.two_le_size
  have fewer := r.length_chunks_le ((x :: y :: rest).drop r.size)
  rw [chunks]
  simp only [List.length_cons, List.length_drop] at fewer ⊢
  omega

end Radix

structure Packed (α : Type) where
  root : Node α
  level : Nat
  length : Nat
deriving DecidableEq, Repr

namespace Node

/-- Groups the nodes of one level under parents until a single root is left; gives the root and its
level. Levels are counted in half a word. -/
def gather (r : Radix) (nodes : List (Node α)) (level : Nat) : Except Fault (Option (Node α × Nat)) :=
  match nodes with
  | [] => .ok none
  | [root] => .ok (some (root, level))
  | a :: b :: rest => do
    ensure (level + r.bits < 1 <<< 32) .overflow
    gather r ((r.chunks (a :: b :: rest)).map (interior 0)) (level + r.bits)
termination_by nodes.length
decreasing_by
  rw [List.length_map]
  exact r.length_chunks_lt a b rest

def pack (r : Radix) (xs : List α) : Except Fault (Option (Packed α)) := do
  let runs := r.chunks xs
  let length ← runs.foldlM (fun n run => Word.add n run.length) 0
  let gathered ← gather r (runs.map (leaf 0)) 0
  return gathered.map fun (root, level) => ⟨root, level, length⟩

end Node

end DigitTrie
