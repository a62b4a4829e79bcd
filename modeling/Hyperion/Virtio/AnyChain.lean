import Hyperion.Virtio.FreeList

/-!
# Chains of any length

`alloc_chain` compares the number of free descriptors with `n as u16`, and then allocates
`n` of them.  For `n` of more than 16 bits the two differ: if the low 16 bits of `n` are no
more than what is free, the loop takes every free descriptor, finds no more, and returns
`None` with all of them lost (`allocChain_of_wide`).

A run may contain such calls.  The chain that they leave behind is a chain like any other,
except that nobody knows its head; `Leaky` is `Sound` with those heads counted as live.
-/

namespace Hyperion.Virtio

open Hyperion.Lib Virtqueue

section Wide

variable {q : Virtqueue} {free : List UInt16} {chains : List (List UInt16)}

/-- The loop of `alloc_chain` runs out of descriptors. -/
theorem extendChain_of_short (head : UInt16) (turns : ℕ) :
    ∀ {q : Virtqueue} {free : List UInt16} (front : List UInt16) (prev : UInt16),
      Owned q free ((front ++ [prev]) :: chains) → free.length < turns →
      ∃ next, extendChain head turns prev q = .ok (none, next) ∧ next.size = q.size ∧
        Owned next [] ((front ++ [prev] ++ free) :: chains) := by
  induction turns with
  | zero =>
    intro q free front prev _ hturns
    exact absurd hturns (Nat.not_lt_zero _)
  | succ turns ih =>
    intro q free front prev owned hturns
    cases free with
    | nil =>
      refine ⟨q, ?_, rfl, by simpa using owned⟩
      rw [extendChain, allocDesc_of_nil owned]
      rfl
    | cons a rest =>
      obtain ⟨q₁, hturn, hsize₁, howned₁⟩ := extendChain_of_cons owned
      obtain ⟨q₂, hextend, hsize₂, howned₂⟩ := ih _ a howned₁ (by simpa using hturns)
      exact ⟨q₂, (hturn head turns).trans hextend, hsize₂.trans hsize₁, by simpa using howned₂⟩

/-- The availability test passes, and there are not enough descriptors. -/
theorem allocChain_of_wide {n : ℕ} {head : UInt16} {rest : List UInt16}
    (owned : Owned q (head :: rest) chains) (hfew : (head :: rest).length < n)
    (hpass : n % 65536 ≤ (head :: rest).length) :
    ∃ next, q.allocChain n = .ok (none, next) ∧ next.size = q.size ∧
      Owned next [] ((head :: rest) :: chains) := by
  obtain ⟨q₁, halloc, hsize₁, howned₁⟩ := allocDesc_of_cons owned
  obtain ⟨q₂, hextend, hsize₂, howned₂⟩ := extendChain_of_short head (n - 1) [] head howned₁
    (by simp at hfew; omega)
  refine ⟨q₂, ?_, by rw [hsize₂, hsize₁], by simpa using howned₂⟩
  have hguard : ¬(q.numFree < UInt16.ofNat n ∨ n = 0) := by
    have hcount := owned.numFree_eq
    rw [UInt16.lt_iff_toNat_lt, UInt16.toNat_ofNat', hcount]
    omega
  rw [allocChain, if_neg hguard, halloc]
  exact hextend

/-- The availability test fails. -/
theorem allocChain_of_refused {n : ℕ} (hrefused : q.numFree.toNat < n % 65536 ∨ n = 0) :
    q.allocChain n = .ok (none, q) := by
  rw [allocChain, if_pos]
  · rfl
  · rwa [UInt16.lt_iff_toNat_lt, UInt16.toNat_ofNat']

/-- What `alloc_chain` does, by what is free and what is asked for. -/
theorem allocChain_cases (owned : Owned q free chains) (n : ℕ) :
    (1 ≤ n ∧ n ≤ free.length) ∨
    ((n = 0 ∨ free.length < n) ∧ (n = 0 ∨ free.length < n % 65536 ∨ free = []) ∧
      q.allocChain n = .ok (none, q)) ∨
    ∃ head rest next, free = head :: rest ∧ free.length < n ∧ n % 65536 ≤ free.length ∧
      q.allocChain n = .ok (none, next) ∧ next.size = q.size ∧
      Owned next [] ((head :: rest) :: chains) := by
  by_cases hfits : 1 ≤ n ∧ n ≤ free.length
  · exact .inl hfits
  refine .inr ?_
  have hmany : n = 0 ∨ free.length < n := by omega
  by_cases hrefused : free.length < n % 65536 ∨ n = 0
  · refine .inl ⟨hmany, hrefused.symm.imp_right Or.inl, allocChain_of_refused ?_⟩
    rwa [owned.numFree_eq]
  rw [not_or, not_lt] at hrefused
  cases free with
  | nil =>
    refine .inl ⟨hmany, .inr (.inr rfl), ?_⟩
    rw [allocChain, allocDesc_of_nil owned]
    split <;> rfl
  | cons head rest =>
    have hfew : (head :: rest).length < n := hmany.resolve_left hrefused.2
    obtain ⟨next, halloc, hsize, hnext⟩ := allocChain_of_wide owned hfew hrefused.1
    exact .inr ⟨head, rest, next, rfl, hfew, hrefused.1, halloc, hsize, hnext⟩

end Wide

/-! ## Runs -/

/-- What drivers do to a queue when they may ask for chains of any length. -/
inductive AnyStep : Driven → Op → Driven → Prop
  | step {state next : Driven} {op : Op} (step : Step state op next) : AnyStep state op next
  | allocChain {q next : Virtqueue} {live : List UInt16} {n : ℕ} {result : Option UInt16}
      (hcall : q.allocChain n = .ok (result, next)) :
      AnyStep ⟨q, live⟩ (.allocChain n result) ⟨next, result.toList ++ live⟩

/-- The chains that are not free are those of the live heads and of the lost ones. -/
def Leaky (size : UInt16) (state : Driven) : Prop :=
  ∃ lost, Sound size ⟨state.queue, state.live ++ lost⟩

section Runs

variable {size : UInt16} {q next : Virtqueue} {live : List UInt16}

theorem Sound.of_perm {live' : List UInt16} (sound : Sound size ⟨q, live⟩)
    (hperm : live.Perm live') : Sound size ⟨q, live'⟩ := by
  refine ⟨sound.size_eq, ?_⟩
  have howned : Owned q q.freeList (live.map q.chainFrom) := sound.owned
  exact howned.of_perm (hperm.map q.chainFrom)

theorem leaky_allocChain {n : ℕ} {result : Option UInt16} (leaky : Leaky size ⟨q, live⟩)
    (hcall : q.allocChain n = .ok (result, next)) : Leaky size ⟨next, result.toList ++ live⟩ := by
  obtain ⟨lost, sound⟩ := leaky
  have howned : Owned q q.freeList ((live ++ lost).map q.chainFrom) := sound.owned
  rcases allocChain_cases howned n with hfits | ⟨_, _, hnone⟩ |
    ⟨head, rest, after, _, _, _, hwide, hsize, hafter⟩
  · have hbound : n < 65536 := by
      have hcount := howned.numFree_eq
      have := q.numFree.toNat_lt
      omega
    refine ⟨lost, ?_⟩
    show Sound size ⟨next, result.toList ++ live ++ lost⟩
    rw [List.append_assoc]
    exact sound_allocChain sound hbound hcall
  · rw [hnone] at hcall
    cases hcall
    exact ⟨lost, sound⟩
  · rw [hwide] at hcall
    cases hcall
    refine ⟨head :: lost, ?_⟩
    have hsound : Sound size ⟨next, head :: (live ++ lost)⟩ := by
      refine sound.of_owned [head] [head :: rest] hsize hafter (fun _ h => h) ?_
      simp [hafter.chainFrom_eq head rest (by simp)]
    show Sound size ⟨next, live ++ head :: lost⟩
    exact hsound.of_perm List.perm_middle.symm

theorem step_leaky (state : Driven) (op : Op) (next : Driven) (leaky : Leaky size state)
    (step : AnyStep state op next) : Leaky size next := by
  cases step with
  | allocChain hcall => exact leaky_allocChain leaky hcall
  | step step =>
    cases step with
    | allocChain hn hcall => exact leaky_allocChain leaky hcall
    | allocDesc hcall =>
      rename_i q next live result
      obtain ⟨lost, sound⟩ := leaky
      refine ⟨lost, ?_⟩
      show Sound size ⟨next, result.toList ++ live ++ lost⟩
      rw [List.append_assoc]
      exact sound_allocDesc sound hcall
    | fill hlive hidx hflags hcall =>
      obtain ⟨lost, sound⟩ := leaky
      exact ⟨lost, sound_fill sound (List.mem_append_left _ hlive) hidx hflags hcall⟩
    | freeChain hlive hcall =>
      rename_i q next live head fuel
      obtain ⟨lost, sound⟩ := leaky
      refine ⟨lost, ?_⟩
      show Sound size ⟨next, live.erase head ++ lost⟩
      rw [← List.erase_append_left _ hlive]
      exact step_sound size _ _ _ sound (.freeChain (List.mem_append_left _ hlive) hcall)

theorem run_leaky {start : Virtqueue} (hnew : Virtqueue.new size = .ok start) {ops : List Op}
    {state : Driven} (run : Run AnyStep ⟨start, []⟩ ops state) : Leaky size state :=
  run.invariant (Leaky size) ⟨[], run_sound hnew .nil⟩ step_leaky

end Runs

/-! ## All or nothing -/

/-- `alloc_chain(n)` returns a chain if there are `n` descriptors for it, and otherwise
nothing, with the queue as it was. -/
def AllOrNothing (q : Virtqueue) (n : ℕ) : Prop :=
  ∃ result next, q.allocChain n = .ok (result, next) ∧ (result = none → next = q) ∧
    (result = none ↔ n = 0 ∨ q.numFree.toNat < n)

/-- **When `alloc_chain` is all or nothing.**  In every state that a queue can come into, it
is unless `n` has more than 16 bits, something is free, and the low 16 bits of `n` are not
more than what is free. -/
theorem allocChain_allOrNothing_iff (size : UInt16) (start : Virtqueue)
    (hnew : Virtqueue.new size = .ok start) (ops : List Op) (state : Driven)
    (run : Run AnyStep ⟨start, []⟩ ops state) (n : ℕ) :
    AllOrNothing state.queue n ↔
      n < 2 ^ 16 ∨ state.queue.numFree.toNat < n % 2 ^ 16 ∨ state.queue.numFree.toNat = 0 := by
  obtain ⟨lost, sound⟩ := run_leaky hnew run
  generalize hq : state.queue = q at sound
  have howned : Owned q q.freeList ((state.live ++ lost).map q.chainFrom) := sound.owned
  have hcount := howned.numFree_eq
  have hbound := q.numFree.toNat_lt
  rcases allocChain_cases howned n with hfits | ⟨hmany, hwhy, hnone⟩ |
    ⟨head, rest, next, hfree, hmany, hpass, hwide, _, hnext⟩
  · obtain ⟨head, _, next, halloc, _⟩ := allocChain_of_le howned hfits.1 hfits.2
    refine iff_of_true ⟨some head, next, halloc, by simp, ?_⟩ (.inl (by omega))
    simp only [reduceCtorEq, false_iff]
    omega
  · refine iff_of_true ⟨none, q, hnone, fun _ => rfl, ?_⟩ ?_
    · simp only [true_iff]
      omega
    · rcases hwhy with rfl | hlow | hnil
      · exact .inl (by decide)
      · exact .inr (.inl (by omega))
      · rw [hnil] at hcount
        exact .inr (.inr hcount)
  · refine iff_of_false ?_ ?_
    · rintro ⟨result, after, hcall, hsame, _⟩
      rw [hwide] at hcall
      cases hcall
      have hzero := hnext.numFree_eq
      rw [hsame rfl, hcount, hfree] at hzero
      simp at hzero
    · rw [hfree] at hcount hmany hpass
      simp only [List.length_cons] at hcount hmany hpass
      omega

theorem allocChain_allOrNothing_iff_fresh :
    ∃ start, Virtqueue.new 4 = .ok start ∧ AllOrNothing start 5 := by
  obtain ⟨start, hnew⟩ := new_of_isPowerOfTwo (show (4 : UInt16).toNat.isPowerOfTwo by decide)
  exact ⟨start, hnew,
    (allocChain_allOrNothing_iff 4 start hnew [] _ .nil 5).mpr (.inl (by decide))⟩

/-- On a new queue of four descriptors, a request for 65536 of them takes all four and
returns `None`. -/
theorem allocChain_leaks :
    ∃ start next, Virtqueue.new 4 = .ok start ∧ start.numFree = 4 ∧
      start.allocChain 65536 = .ok (none, next) ∧ next.numFree = 0 := by
  let start := queueOfFour [⟨0, 0, 1, 1⟩, ⟨0, 0, 1, 2⟩, ⟨0, 0, 1, 3⟩, ⟨0, 0, 1, 0⟩] 0 4
  let next := queueOfFour [⟨0, 0, 1, 1⟩, ⟨0, 0, 1, 2⟩, ⟨0, 0, 1, 3⟩, ⟨0, 0, 0, 0⟩] 0 0
  exact ⟨start, next, by decide +kernel, rfl, by decide +kernel, rfl⟩

end Hyperion.Virtio
