import Mathlib.Algebra.Order.Floor.Div
import Mathlib.Data.List.Range
import DigitTrie.Proofs.Reading

/-! The leaf that a cursor keeps. It is what is left of the leaf of the element that was read last, so a further
leaf is fetched for the first element and then only where a leaf begins. What a reading fetches is seen by giving
its steps a `fetch` that keeps a log: the steps are the same, and they call it where they call `fetch`. -/
namespace DigitTrie

variable {r : Radix} {α : Type} {t : Trie r α} {c d : Cursor r α} {cs : List (Cursor r α)}
  {p i j n : Nat}

namespace Radix

def quaternary : Radix := ⟨2, by decide, by decide⟩

/-- The first index from `p` on at which a leaf begins. -/
def leafStop (r : Radix) (p : Nat) : Nat := r.size * (p ⌈/⌉ r.size)

theorem leafStop_succ (r : Radix) (p : Nat) : r.leafStop (p + 1) = r.size * (p / r.size + 1) := by
  have up : p + 1 + r.size - 1 = p + r.size := by omega
  rw [leafStop, Nat.ceilDiv_eq_add_pred_div, up, Nat.add_div_right _ r.size_pos]

theorem leafStop_succ_sub (r : Radix) (p : Nat) :
    r.leafStop (p + 1) - (p + 1) + 1 = r.size - p % r.size := by
  have split := Nat.div_add_mod p r.size
  have bound := Nat.mod_lt p r.size_pos
  rw [leafStop_succ, Nat.mul_succ]
  omega

theorem leafStop_of_aligned (aligned : p % r.size = 0) : r.leafStop p = p := by
  obtain ⟨k, rfl⟩ := Nat.dvd_of_mod_eq_zero aligned
  have down : r.size * k + r.size - 1 = r.size - 1 + r.size * k := by
    have := r.size_pos
    omega
  rw [leafStop, Nat.ceilDiv_eq_add_pred_div, down, Nat.add_mul_div_left _ _ r.size_pos,
    Nat.div_eq_of_lt (Nat.sub_lt r.size_pos Nat.one_pos), Nat.zero_add]

theorem leafStop_of_not_aligned (inner : p % r.size ≠ 0) : r.leafStop p = r.leafStop (p + 1) := by
  obtain ⟨q, rfl⟩ : ∃ q, p = q + 1 := Nat.exists_eq_add_one_of_ne_zero (by rintro rfl; simp at inner)
  have same : (q + 1) / r.size = q / r.size := by
    rw [Nat.succ_div, if_neg (fun whole => inner (Nat.mod_eq_zero_of_dvd whole)), Nat.add_zero]
  rw [leafStop_succ, leafStop_succ, same]

theorem leafStop_sub_of_inner (inner : p % r.size ≠ 0) :
    r.leafStop p - p = r.leafStop (p + 1) - (p + 1) + 1 := by
  have left := r.leafStop_succ_sub p
  have bound := Nat.mod_lt p r.size_pos
  have split := Nat.div_add_mod p r.size
  rw [leafStop_of_not_aligned inner]
  rw [leafStop_succ, Nat.mul_succ] at left ⊢
  omega

/-- The leaves that overlap the indices from `p` on, `n` more than that one, are counted by the indices at which
a further leaf begins. -/
theorem leaves_from (r : Radix) (p n : Nat) :
    (p :: (List.range' (p + 1) n).filter (· % r.size = 0)).map (· / r.size) =
      List.range' (p / r.size) ((p + n) / r.size + 1 - p / r.size) := by
  induction n with
  | zero => simp
  | succ n ih =>
    have ordered := Nat.div_le_div_right (c := r.size) (Nat.le_add_right p n)
    have next : p + 1 + n = p + n + 1 := by omega
    rw [List.range'_1_concat, List.filter_append, ← List.cons_append, List.map_append, ih, next,
      ← Nat.add_assoc, Nat.succ_div]
    -- One more index at the end begins the leaf with the next number, or it is in the last leaf already.
    by_cases whole : r.size ∣ p + n + 1
    · have count : (p + n) / r.size + 1 + 1 - p / r.size = (p + n) / r.size + 1 - p / r.size + 1 := by omega
      have here : (p + n + 1) / r.size = p / r.size + ((p + n) / r.size + 1 - p / r.size) := by
        rw [Nat.succ_div, if_pos whole]
        omega
      rw [if_pos whole, count, List.range'_1_concat]
      simp [Nat.mod_eq_zero_of_dvd whole, here]
    · have inner : (p + n + 1) % r.size ≠ 0 := fun zero => whole (Nat.dvd_of_mod_eq_zero zero)
      simp [inner, whole]

theorem mem_leaves_iff {first last m : Nat} (ordered : first ≤ last) :
    m ∈ List.range' (first / r.size) (last / r.size + 1 - first / r.size) ↔
      ∃ p, first ≤ p ∧ p ≤ last ∧ p / r.size = m := by
  have monotone := Nat.div_le_div_right (c := r.size) ordered
  rw [List.mem_range'_1]
  constructor
  · rintro ⟨low, high⟩
    have inside : m * r.size ≤ last := (Nat.le_div_iff_mul_le r.size_pos).mp (by omega)
    by_cases before : first ≤ m * r.size
    · exact ⟨m * r.size, before, inside, Nat.mul_div_cancel _ r.size_pos⟩
    · have here : m ≤ first / r.size := (Nat.le_div_iff_mul_le r.size_pos).mpr (by omega)
      exact ⟨first, Nat.le_refl _, ordered, Nat.le_antisymm low here⟩
  · rintro ⟨p, low, high, rfl⟩
    have := Nat.div_le_div_right (c := r.size) low
    have := Nat.div_le_div_right (c := r.size) high
    omega

end Radix

/-- What is left from the index `j` on of the leaf that has the element before it, cut at the end of the trie. -/
def Trie.restOfLeaf (t : Trie r α) (j : Nat) : List α :=
  (t.toList.take (min t.length (r.leafStop (t.offset + j) - t.offset))).drop j

namespace Cursor

/-- `fetch`, which puts the physical index that it is called for on a log. -/
def fetchLogged (c : Cursor r α) : StateT (List Nat) (Except Fault) (List α) := do
  modify (· ++ [c.trie.offset + c.index])
  c.fetch

def nextLogged (c : Cursor r α) : Except Fault ((Option α × Cursor r α) × List Nat) :=
  (nextBy fetchLogged c).run []

def readLogged (count : Nat) (c : Cursor r α) : StateT (List Nat) (Except Fault) (Unit × Cursor r α) :=
  foldBy fetchLogged (fun _ _ => ()) count () c

/-- The physical indices for which a reading of `count` elements calls `fetch`, in their order. -/
def fetches (count : Nat) (c : Cursor r α) : Except Fault (List Nat) :=
  ((c.readLogged count).run []).map Prod.snd

theorem run_fetchLogged (c : Cursor r α) (log : List Nat) :
    (fetchLogged c).run log = c.fetch.map fun leaf => (leaf, log ++ [c.trie.offset + c.index]) := by
  rw [fetchLogged]
  cases c.fetch <;> rfl

/-- The log changes nothing, whatever the trie: where a step stops with a fault, it does so on a log, too. -/
theorem nextLogged_fst (c : Cursor r α) : c.nextLogged.map Prod.fst = c.next := by
  rw [nextLogged, next, nextBy, nextBy, aheadBy, aheadBy]
  split
  · rfl
  · split
    · rw [StateT.run_bind, run_fetchLogged]
      cases c.fetch with
      | error fault => rfl
      | ok leaf => cases leaf <;> rfl
    · cases c.leaf <;> rfl

/-- How far a reading from the index `i` on has come: nothing is read and no leaf is kept, or the element before
the index `j` was read, and what is left of its leaf is kept. -/
inductive Stage (t : Trie r α) (i : Nat) : Cursor r α → Prop where
  | unread : Stage t i (t.cursorAt i)
  | read {j : Nat} : i < j → j ≤ t.length → Stage t i ⟨t, t.restOfLeaf j, j⟩

/-- One reading step from `c` to `d`: it gives the element at the index and then keeps what is left of its leaf;
it fetches that leaf if nothing was read before or if the leaf begins there; and where it fetches a leaf, there
is one to be taken from. -/
structure Reads (t : Trie r α) (i : Nat) (c d : Cursor r α) (fetched : List Nat) : Prop where
  next : c.next = .ok (t.toList[c.index]?, d)
  logged : c.nextLogged = .ok ((t.toList[c.index]?, d), fetched)
  kept : ∀ x, t.toList[c.index]? = some x → d.index = c.index + 1 ∧ d.leaf = t.restOfLeaf d.index
  calls : fetched = if c.index < t.length ∧ (c.index = i ∨ (t.offset + c.index) % r.size = 0) then
    [t.offset + c.index] else []
  meets : fetched ≠ [] → ∃ leaf start stop, c.Meets leaf start stop ∧
    c.fetch = .ok ((leaf.slots.take stop).drop start)

theorem restOfLeaf_eq (accepted : t.Accepted) (j : Nat) :
    t.restOfLeaf j = (t.toList.drop j).take (r.leafStop (t.offset + j) - (t.offset + j)) := by
  rw [Trie.restOfLeaf, ← Trie.length_toList accepted, Nat.min_comm, ← List.take_eq_take_min, List.drop_take,
    Nat.sub_sub]

/-- Of an index that the trie has, nothing is left in the leaf before it exactly if it begins a leaf. -/
theorem restOfLeaf_eq_nil_iff (accepted : t.Accepted) (inside : j < t.length) :
    t.restOfLeaf j = [] ↔ (t.offset + j) % r.size = 0 := by
  have more : t.toList.drop j ≠ [] := by
    rw [Ne, List.drop_eq_nil_iff, Trie.length_toList accepted]
    omega
  rw [restOfLeaf_eq accepted]
  constructor
  · intro kept
    by_contra inner
    rw [Radix.leafStop_sub_of_inner inner, List.take_eq_nil_iff] at kept
    exact kept.elim (Nat.succ_ne_zero _) more
  · intro aligned
    rw [Radix.leafStop_of_aligned aligned, Nat.sub_self, List.take_zero]

/-- A leaf is fetched where none is kept, and either way the elements ahead go on to the end of the leaf. -/
theorem run_aheadBy (accepted : c.trie.Accepted) (more : c.index < c.trie.length)
    (kept : c.leaf = [] ∨ c.leaf = c.trie.restOfLeaf c.index) (log : List Nat) :
    (aheadBy fetchLogged c).run log = .ok (c.coming.take
        (r.leafStop (c.trie.offset + c.index + 1) - (c.trie.offset + c.index + 1) + 1),
      log ++ if c.leaf = [] then [c.trie.offset + c.index] else []) := by
  by_cases vacant : c.leaf = []
  · have fetched := fetch_coming accepted more
    rw [← r.leafStop_succ_sub] at fetched
    rw [aheadBy, if_pos (by simp [vacant]), if_pos vacant]
    rw [run_fetchLogged, fetched]
    rfl
  · have rest := kept.resolve_left vacant
    have inner : (c.trie.offset + c.index) % r.size ≠ 0 := by
      rwa [Ne, ← restOfLeaf_eq_nil_iff accepted more, ← rest]
    rw [aheadBy, if_neg (by simp [vacant]), if_neg vacant, rest, restOfLeaf_eq accepted,
      Radix.leafStop_sub_of_inner inner, List.append_nil]
    rfl

theorem run_nextBy (accepted : c.trie.Accepted) (more : c.index < c.trie.length)
    (kept : c.leaf = [] ∨ c.leaf = c.trie.restOfLeaf c.index) (log : List Nat) :
    (nextBy fetchLogged c).run log = .ok ((c.trie.toList[c.index]?,
        ⟨c.trie, c.trie.restOfLeaf (c.index + 1), c.index + 1⟩),
      log ++ if c.leaf = [] then [c.trie.offset + c.index] else []) := by
  have inside : c.index < c.trie.toList.length := by rwa [Trie.length_toList accepted]
  have split : c.coming = c.trie.toList[c.index] :: c.trie.toList.drop (c.index + 1) :=
    List.drop_eq_getElem_cons inside
  rw [nextBy, if_neg (Nat.not_le.mpr more), restOfLeaf_eq accepted, List.getElem?_eq_getElem inside]
  refine bind_eq_ok_iff.mpr ⟨_, run_aheadBy accepted more kept log, ?_⟩
  rw [split]
  rfl

theorem run_nextBy_end (ended : c.trie.length ≤ c.index) (log : List Nat) :
    (nextBy fetchLogged c).run log = .ok ((none, c), log) := by
  rw [nextBy, if_pos ended]
  rfl

namespace Stage

theorem trie_eq (stage : Stage t i c) : c.trie = t := by
  cases stage <;> rfl

theorem kept (stage : Stage t i c) : c.leaf = [] ∨ c.leaf = c.trie.restOfLeaf c.index := by
  cases stage with
  | unread => exact .inl rfl
  | read => exact .inr rfl

theorem start_le (stage : Stage t i c) (more : c.index < t.length) : i ≤ c.index := by
  cases stage with
  | unread =>
    have more : min i t.length < t.length := more
    exact Nat.le_min.mpr ⟨Nat.le_refl i, by omega⟩
  | read behind => exact Nat.le_of_lt behind

theorem leaf_eq_nil_iff (accepted : t.Accepted) (stage : Stage t i c) (more : c.index < t.length) :
    c.leaf = [] ↔ c.index = i ∨ (t.offset + c.index) % r.size = 0 := by
  cases stage with
  | unread =>
    have more : min i t.length < t.length := more
    have first : (t.cursorAt i).index = i := Nat.min_eq_left (by omega)
    exact iff_of_true rfl (.inl first)
  | read behind inside =>
    refine (restOfLeaf_eq_nil_iff accepted more).trans (or_iff_right ?_).symm
    exact Nat.ne_of_gt behind

theorem step (accepted : t.Accepted) (stage : Stage t i c) :
    ∃ d fetched, Reads t i c d fetched ∧ Stage t i d := by
  have same := stage.trie_eq
  by_cases more : c.index < t.length
  · have logged : c.nextLogged = _ := run_nextBy (same ▸ accepted) (same ▸ more) stage.kept []
    rw [same, List.nil_append] at logged
    refine ⟨_, _, ⟨?_, logged, fun _ _ => ⟨rfl, rfl⟩, ?_, fun _ => ?_⟩,
      .read (Nat.lt_succ_of_le (stage.start_le more)) more⟩
    · rw [← nextLogged_fst, logged]
      rfl
    · simp only [stage.leaf_eq_nil_iff accepted more, more, true_and]
    · obtain ⟨leaf, start, stop, meets, -⟩ := exists_meets (same ▸ accepted) (same ▸ more)
      exact ⟨leaf, start, stop, meets, meets.fetch⟩
  · have ended : t.toList[c.index]? = none := by
      rw [List.getElem?_eq_none_iff, Trie.length_toList accepted]
      exact Nat.not_lt.mp more
    have logged : c.nextLogged = .ok ((none, c), []) := run_nextBy_end (by rw [same]; omega) []
    refine ⟨c, [], ⟨?_, by rw [ended, logged], ?_, ?_, fun given => absurd rfl given⟩, stage⟩
    · rw [ended, ← nextLogged_fst, logged]
      rfl
    · intro x given
      rw [ended] at given
      cases given
    · rw [if_neg (fun both => more both.1)]

end Stage

/-- Cursors over one trie: one that begins before the element with index `i`, and what reading steps and copies
make of it. -/
inductive Family (t : Trie r α) (i : Nat) : List (Cursor r α) → Prop where
  | start : Family t i [t.cursorAt i]
  | next {cs : List (Cursor r α)} {c d : Cursor r α} {x : Option α} (k : Nat) : Family t i cs →
      cs[k]? = some c → c.next = .ok (x, d) → Family t i (cs.set k d)
  | copy {cs : List (Cursor r α)} {c : Cursor r α} (k : Nat) : Family t i cs → cs[k]? = some c →
      Family t i (cs ++ [c])

theorem Family.stage (accepted : t.Accepted) (family : Family t i cs) : ∀ c ∈ cs, Stage t i c := by
  induction family with
  | start =>
    intro c member
    rw [List.mem_singleton.mp member]
    exact .unread
  | next k _ found next ih =>
    obtain ⟨e, fetched, reads, later⟩ := (ih _ (List.mem_of_getElem? found)).step accepted
    cases next.symm.trans reads.next
    intro c member
    rcases List.mem_or_eq_of_mem_set member with old | rfl
    · exact ih c old
    · exact later
  | copy k _ found ih =>
    intro c member
    rcases List.mem_append.mp member with old | new
    · exact ih c old
    · rw [List.mem_singleton.mp new]
      exact ih _ (List.mem_of_getElem? found)

/-! What a whole reading fetches. -/

theorem readLogged_succ (n : Nat) (c : Cursor r α) : c.readLogged (n + 1) = (do
    match ← nextBy fetchLogged c with
    | (none, d) => return ((), d)
    | (some _, d) => d.readLogged n) := rfl

theorem log_succ (accepted : c.trie.Accepted) (more : c.index < c.trie.length)
    (kept : c.leaf = [] ∨ c.leaf = c.trie.restOfLeaf c.index) (log : List Nat) :
    (c.readLogged (n + 1)).run log =
      (readLogged n ⟨c.trie, c.trie.restOfLeaf (c.index + 1), c.index + 1⟩).run
        (log ++ if c.leaf = [] then [c.trie.offset + c.index] else []) := by
  have inside : c.index < c.trie.toList.length := by rwa [Trie.length_toList accepted]
  have step := run_nextBy accepted more kept log
  rw [List.getElem?_eq_getElem inside] at step
  rw [readLogged_succ, StateT.run_bind, step]
  rfl

theorem log_end (ended : c.trie.length ≤ c.index) (n : Nat) (log : List Nat) :
    (c.readLogged n).run log = .ok (((), c), log) := by
  cases n with
  | zero => rfl
  | succ n =>
    rw [readLogged_succ, StateT.run_bind, run_nextBy_end ended]
    rfl

/-- Once an element is read, a leaf is fetched at each index that begins one. The induction is on the steps, and
each of them leaves a cursor that keeps what is left of a leaf. -/
theorem log_read (accepted : t.Accepted) (n j : Nat) (log : List Nat) :
    ∃ c, (readLogged n ⟨t, t.restOfLeaf j, j⟩).run log = .ok (((), c),
      log ++ (List.range' (t.offset + j) (min n (t.length - j))).filter (· % r.size = 0)) := by
  induction n generalizing j log with
  | zero => exact ⟨_, by rw [Nat.zero_min, List.range'_zero, List.filter_nil, List.append_nil]; rfl⟩
  | succ n ih =>
    by_cases more : j < t.length
    · have count : min (n + 1) (t.length - j) = min n (t.length - (j + 1)) + 1 := by omega
      obtain ⟨c, others⟩ := ih (j + 1) (log ++ if t.restOfLeaf j = [] then [t.offset + j] else [])
      refine ⟨c, (log_succ accepted more (.inr rfl) log).trans (others.trans ?_)⟩
      rw [count, List.range'_succ, List.filter_cons, List.append_assoc]
      simp only [restOfLeaf_eq_nil_iff accepted more, decide_eq_true_eq]
      split <;> rfl
    · have ended : t.length - j = 0 := by omega
      rw [ended, Nat.min_zero, List.range'_zero, List.filter_nil, List.append_nil]
      exact ⟨_, log_end (Nat.not_lt.mp more) _ log⟩

/-- A whole reading fetches the leaf of its first element, and then each one at the index where it begins. -/
theorem fetches_cursorAt (accepted : t.Accepted) (more : i < t.length) (all : t.length - i ≤ n) :
    (t.cursorAt i).fetches n = .ok ((t.offset + i) ::
      (List.range' (t.offset + i + 1) (t.length - (i + 1))).filter (· % r.size = 0)) := by
  obtain ⟨m, rfl⟩ : ∃ m, n = m + 1 := Nat.exists_eq_add_one_of_ne_zero (by omega)
  have first : t.cursorAt i = ⟨t, [], i⟩ := by rw [Trie.cursorAt, Nat.min_eq_left (Nat.le_of_lt more)]
  obtain ⟨c, later⟩ := log_read accepted m (i + 1) [t.offset + i]
  rw [Nat.min_eq_right (by omega)] at later
  rw [fetches, first, log_succ (c := ⟨t, [], i⟩) accepted more (.inl rfl) []]
  exact congrArg (Except.map Prod.snd) later

theorem fetches_end (ended : c.trie.length ≤ c.index) : c.fetches n = .ok [] := by
  rw [fetches, log_end ended]
  rfl

end Cursor

/-- However cursors over an accepted trie were made from one that begins before the element `i`, each of them has
either read nothing and keeps nothing, or it keeps what is left of the leaf of the element that it read last;
its next step does as it should, and fetches a leaf for its first element and where a leaf begins, and nowhere
else. A reading to the end fetches each leaf that has an element from there on, and each of them once. -/
theorem leaf_fetched_once (accepted : t.Accepted) (i : Nat) :
    (t.cursorAt i).leaf = [] ∧
    (∀ cs, Cursor.Family t i cs → ∀ c ∈ cs, Cursor.Stage t i c ∧
      ∃ d fetched, Cursor.Reads t i c d fetched) ∧
    ∀ n, t.length - i ≤ n → ∃ ps, (t.cursorAt i).fetches n = .ok ps ∧ (ps.map (· / r.size)).Nodup ∧
      ∀ m, m ∈ ps.map (· / r.size) ↔
        ∃ p, t.offset + i ≤ p ∧ p < t.offset + t.length ∧ p / r.size = m := by
  refine ⟨rfl, fun cs family c member => ?_, fun n all => ?_⟩
  · have stage := family.stage accepted c member
    obtain ⟨d, fetched, reads, -⟩ := stage.step accepted
    exact ⟨stage, d, fetched, reads⟩
  · by_cases more : i < t.length
    · refine ⟨_, Cursor.fetches_cursorAt accepted more all, ?_⟩
      have ordered : t.offset + i ≤ t.offset + i + (t.length - (i + 1)) := Nat.le_add_right _ _
      rw [r.leaves_from]
      refine ⟨List.nodup_range', fun m => (Radix.mem_leaves_iff ordered).trans ?_⟩
      refine exists_congr fun p => and_congr_right fun _ => and_congr_left fun _ => ?_
      omega
    · have short := Nat.not_lt.mp more
      refine ⟨[], Cursor.fetches_end (Nat.le_min.mpr ⟨short, Nat.le_refl _⟩), List.nodup_nil, fun m => ?_⟩
      refine iff_of_false List.not_mem_nil ?_
      rintro ⟨p, low, high, -⟩
      omega

/-- A window over three leaves, of which the first and the last have other indices too, and a reading that begins
within the first one: after a step the cursor was copied, and the next step fetches the second leaf. -/
theorem leaf_fetched_once_midst :
    (Trie.filled Nat.succ 1 2 9 : Trie Radix.quaternary Nat).Accepted ∧
    (∃ c d : Cursor Radix.quaternary Nat, Cursor.Family (.filled Nat.succ 1 2 9) 1 [c, c] ∧ c.index = 2 ∧
      c.leaf = [] ∧ Cursor.Reads (.filled Nat.succ 1 2 9) 1 c d [4] ∧ d.leaf = [6, 7, 8]) ∧
    ∃ ps, ((Trie.filled Nat.succ 1 2 9 : Trie Radix.quaternary Nat).cursorAt 1).fetches 9 = .ok ps ∧
      ps = [3, 4, 8] ∧ (ps.map (· / Radix.quaternary.size)).Nodup := by
  have accepted : (Trie.filled Nat.succ 1 2 9 : Trie Radix.quaternary Nat).Accepted :=
    Trie.filled_accepted ⟨by decide, by decide, by decide⟩
  obtain ⟨-, steps, whole⟩ := leaf_fetched_once accepted 1
  have first : ((Trie.filled Nat.succ 1 2 9 : Trie Radix.quaternary Nat).cursorAt 1).next =
      .ok (some 4, ⟨.filled Nat.succ 1 2 9, [], 2⟩) := by cbv
  have family := (Cursor.Family.start.next 0 rfl first).copy 0 rfl
  obtain ⟨-, d, fetched, reads⟩ := steps _ family _ List.mem_cons_self
  obtain rfl : fetched = [4] := reads.calls.trans (if_pos (by decide))
  have element : (Trie.filled Nat.succ 1 2 9 : Trie Radix.quaternary Nat).toList[2]? = some 5 := by cbv
  obtain ⟨index, leaf⟩ := reads.kept 5 element
  obtain ⟨ps, run, once, -⟩ := whole 9 (by decide)
  have log : ((Trie.filled Nat.succ 1 2 9 : Trie Radix.quaternary Nat).cursorAt 1).fetches 9 =
      .ok [3, 4, 8] := by decide +kernel
  refine ⟨accepted, ⟨_, d, family, rfl, rfl, reads, ?_⟩, ps, run, Except.ok.inj (run.symm.trans log), once⟩
  rw [leaf, index]
  cbv

end DigitTrie
