import Mathlib

/-!
# Lists threaded through a link function

Two ways in which a program keeps a list inside an array of nodes.  A counted
list has no terminator: it is the first `n` nodes met when following `next` from
its head (`follow`).  A terminated chain marks every node but its last as having
a successor (`Linked`), and `walk` reads it back from its head.  Both depend on
`next` and `more` only at their own nodes, which is what lets several of them
share one array (`follow_congr`, `Linked.congr`).
-/

namespace Hyperion.Lib

variable {ι : Type*} {next next' : ι → ι} {more more' : ι → Bool}

/-! ## Counted lists -/

/-- The first `n` nodes met when following `next` from `head`. -/
def follow (next : ι → ι) : ℕ → ι → List ι
  | 0, _ => []
  | n + 1, head => head :: follow next n (next head)

@[simp] theorem length_follow (next : ι → ι) (n : ℕ) (head : ι) :
    (follow next n head).length = n := by
  induction n generalizing head with
  | zero => rfl
  | succ n ih => simp [follow, ih]

theorem follow_congr {n : ℕ} {head : ι}
    (heq : ∀ node ∈ follow next n head, next' node = next node) :
    follow next' n head = follow next n head := by
  induction n generalizing head with
  | zero => rfl
  | succ n ih =>
    have hhead : next' head = next head := heq head (by simp [follow])
    simp only [follow, hhead]
    rw [ih fun node hnode => heq node (by simp [follow, hnode])]

/-! ## Terminated chains -/

/-- `nodes` is a whole chain: `next` leads from each node to the one after it,
and `more` holds of all nodes but the last. -/
def Linked (next : ι → ι) (more : ι → Bool) : List ι → Prop
  | [] => False
  | [last] => more last = false
  | node :: succ :: rest => more node = true ∧ next node = succ ∧ Linked next more (succ :: rest)

/-- The nodes met when following `next` from `head` for as long as `more` holds,
at most `fuel` of them. -/
def walk (next : ι → ι) (more : ι → Bool) : ℕ → ι → List ι
  | 0, _ => []
  | fuel + 1, head => head :: if more head then walk next more fuel (next head) else []

theorem Linked.ne_nil {nodes : List ι} (hlinked : Linked next more nodes) : nodes ≠ [] := by
  rintro rfl
  exact hlinked

theorem Linked.congr {nodes : List ι} (hlinked : Linked next more nodes)
    (hnext : ∀ node ∈ nodes, next' node = next node)
    (hmore : ∀ node ∈ nodes, more' node = more node) : Linked next' more' nodes := by
  induction nodes with
  | nil => exact hlinked
  | cons node rest ih =>
    cases rest with
    | nil =>
      show more' node = false
      rw [hmore node (by simp)]
      exact hlinked
    | cons succ rest =>
      refine ⟨?_, ?_, ih hlinked.2.2 (fun n hn => hnext n (by simp [hn]))
        (fun n hn => hmore n (by simp [hn]))⟩
      · rw [hmore node (by simp)]
        exact hlinked.1
      · rw [hnext node (by simp)]
        exact hlinked.2.1

/-- Linking one more node behind the last one. -/
theorem Linked.append_singleton {front : List ι} {last node : ι}
    (hlinked : Linked next more (front ++ [last]))
    (hnext : ∀ n ∈ front, next' n = next n) (hmore : ∀ n ∈ front, more' n = more n)
    (hlast : more' last = true) (hlink : next' last = node) (hnode : more' node = false) :
    Linked next' more' (front ++ [last, node]) := by
  induction front with
  | nil => exact ⟨hlast, hlink, hnode⟩
  | cons first front ih =>
    have htail := fun h => ih h (fun n hn => hnext n (by simp [hn]))
      (fun n hn => hmore n (by simp [hn]))
    -- the first two nodes have to be visible for `Linked` to unfold
    cases front <;>
      exact ⟨(hmore first (by simp)).trans hlinked.1, (hnext first (by simp)).trans hlinked.2.1,
        htail hlinked.2.2⟩

theorem Linked.more_iff {nodes : List ι} (hlinked : Linked next more nodes) (hnodup : nodes.Nodup)
    {node : ι} (hnode : node ∈ nodes) : more node = true ↔ nodes.getLast? ≠ some node := by
  induction nodes with
  | nil => exact hlinked.elim
  | cons first rest ih =>
    cases rest with
    | nil =>
      have hlast : more first = false := hlinked
      obtain rfl : node = first := by simpa using hnode
      simp [hlast]
    | cons second rest =>
      obtain ⟨hfirst, _, hrest⟩ := hlinked
      rw [List.nodup_cons] at hnodup
      rw [List.getLast?_cons_cons]
      rcases List.mem_cons.mp hnode with rfl | hnode
      · simp only [hfirst, true_iff]
        intro hlast
        exact hnodup.1 (List.mem_of_getLast? hlast)
      · exact ih hrest hnodup.2 hnode

/-- Reading a chain back from its head. -/
theorem Linked.walk_eq {head : ι} {rest : List ι} (hlinked : Linked next more (head :: rest)) :
    ∀ {fuel : ℕ}, (head :: rest).length ≤ fuel → walk next more fuel head = head :: rest := by
  induction rest generalizing head with
  | nil =>
    intro fuel hfuel
    obtain ⟨fuel, rfl⟩ : ∃ n, fuel = n + 1 := ⟨fuel - 1, by simp at hfuel; omega⟩
    have hlast : more head = false := hlinked
    simp [walk, hlast]
  | cons succ rest ih =>
    intro fuel hfuel
    obtain ⟨fuel, rfl⟩ : ∃ n, fuel = n + 1 := ⟨fuel - 1, by simp at hfuel; omega⟩
    obtain ⟨hmore, rfl, hrest⟩ := hlinked
    simp only [walk, hmore, if_true]
    rw [ih hrest (by simpa using hfuel)]

end Hyperion.Lib
