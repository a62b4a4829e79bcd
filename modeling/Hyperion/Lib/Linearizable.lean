import Mathlib

/-!
# Calls that overlap, as calls one after the other

An object has states `σ` and calls with one meaning each, `seq call state`, the answer
and the state after it.  When calls take several steps and overlap, what is seen of
them is a list of `Completed` calls with their answers and times.  They are
`Linearizable` when they can be put into an order in which `seq` gives every one of
its answer, and which has no call before one that was over when it began.

A proof extends such an order whenever a call completes.  A call that takes effect as
it completes goes to the end (`Ordered.append`).  A call without effect may go
further to the front, to a place where its answer was right and behind all calls that
were over when it began; that there is one is what `Possible` says, and later calls
do not take it away (`Possible.append`, `Possible.insert`).
-/

namespace Hyperion.Lib

open scoped List

variable {Call Answer σ : Type}

/-- A call that is over. -/
structure Completed (Call Answer : Type) where
  call : Call
  answer : Answer
  start : ℕ
  stop : ℕ
  deriving DecidableEq, Repr

/-- `seq`, call after call, gives the answers and leads from one state to the other. -/
def Replays (seq : Call → σ → Answer × σ) : σ → List (Completed Call Answer) → σ → Prop
  | state, [], last => state = last
  | state, entry :: log, last =>
    (seq entry.call state).1 = entry.answer ∧ Replays seq (seq entry.call state).2 log last

/-- `log` has the completed calls in an order that explains them. -/
structure Ordered (seq : Call → σ → Answer × σ) (init : σ)
    (completed : List (Completed Call Answer))
    (now : σ) (log : List (Completed Call Answer)) : Prop where
  perm : log.Perm completed
  inTime : log.Pairwise fun earlier later => earlier.start ≤ later.stop
  replays : Replays seq init log now

/-- The completed calls are those of some sequential order. -/
def Linearizable (seq : Call → σ → Answer × σ) (init : σ)
    (completed : List (Completed Call Answer)) (now : σ) : Prop :=
  ∃ log, Ordered seq init completed now log

/-- A call that began at `start` could have had this answer, without any effect, at some
place behind all calls that were over by then. -/
def Possible (seq : Call → σ → Answer × σ) (init : σ) (log : List (Completed Call Answer))
    (call : Call) (start : ℕ) (answer : Answer) : Prop :=
  ∃ front back state, log = front ++ back ∧ (∀ entry ∈ back, start ≤ entry.stop) ∧
    Replays seq init front state ∧ seq call state = (answer, state)

variable {seq : Call → σ → Answer × σ} {init now : σ} {log : List (Completed Call Answer)}

theorem replays_append {front back : List (Completed Call Answer)} {state last : σ} :
    Replays seq state (front ++ back) last ↔
      ∃ middle, Replays seq state front middle ∧ Replays seq middle back last := by
  induction front generalizing state with
  | nil => simp [Replays]
  | cons entry front ih => simp only [List.cons_append, Replays, ih, exists_and_left, and_assoc]

/-- Two replays of the same calls end in the same state. -/
theorem Replays.unique {state last last' : σ} (hlast : Replays seq state log last)
    (hlast' : Replays seq state log last') : last = last' := by
  induction log generalizing state with
  | nil => exact hlast.symm.trans hlast'
  | cons entry log ih => exact ih hlast.2 hlast'.2

section Place

variable {call : Call} {start : ℕ} {answer : Answer} {entry : Completed Call Answer}

/-- What the call would answer now is possible. -/
theorem possible_now (hreplays : Replays seq init log now)
    (hnow : seq call now = (answer, now)) : Possible seq init log call start answer :=
  ⟨log, [], now, (List.append_nil log).symm, by simp, hreplays, hnow⟩

/-- What was possible is still so when a call is added at the end. -/
theorem Possible.append (h : Possible seq init log call start answer) (hstop : start ≤ entry.stop) :
    Possible seq init (log ++ [entry]) call start answer := by
  obtain ⟨front, back, state, rfl, hback, hfront, hseq⟩ := h
  refine ⟨front, back ++ [entry], state, by rw [List.append_assoc], ?_, hfront, hseq⟩
  intro e he
  rcases List.mem_append.mp he with he | he
  · exact hback e he
  · rw [List.mem_singleton.mp he]
    exact hstop

/-- What was possible is still so when a call without effect is put somewhere. -/
theorem Possible.insert {front back : List (Completed Call Answer)} {state : σ}
    (h : Possible seq init (front ++ back) call start answer) (hstop : start ≤ entry.stop)
    (hfront : Replays seq init front state)
    (hentry : seq entry.call state = (entry.answer, state)) :
    Possible seq init (front ++ entry :: back) call start answer := by
  obtain ⟨before, behind, place, hsplit, hbehind, hbefore, hseq⟩ := h
  rcases List.append_eq_append_iff.mp hsplit with ⟨gap, rfl, rfl⟩ | ⟨gap, rfl, rfl⟩
  · -- the new call stands before the place
    refine ⟨front ++ entry :: gap, behind, place, by simp, hbehind, ?_, hseq⟩
    obtain ⟨middle, hmiddle, hgap⟩ := replays_append.mp hbefore
    rw [← hfront.unique hmiddle] at hgap
    refine replays_append.mpr ⟨state, hfront, ?_⟩
    rw [Replays, hentry]
    exact ⟨rfl, hgap⟩
  · -- it stands behind
    refine ⟨before, gap ++ entry :: back, place, by simp, ?_, hbefore, hseq⟩
    intro e he
    rcases List.mem_append.mp he with he | he
    · exact hbehind e (List.mem_append_left _ he)
    · rcases List.mem_cons.mp he with rfl | he
      · exact hstop
      · exact hbehind e (List.mem_append_right _ he)

end Place

namespace Ordered

variable {completed : List (Completed Call Answer)} {entry : Completed Call Answer}

theorem nil (init : σ) : Ordered seq init [] init [] := ⟨List.Perm.refl _, List.Pairwise.nil, rfl⟩

/-- A call that completes with what `seq` does now goes to the end. -/
theorem append (h : Ordered seq init completed now log) {next : σ}
    (hseq : seq entry.call now = (entry.answer, next))
    (hpast : ∀ e ∈ log, e.start ≤ entry.stop) :
    Ordered seq init (completed ++ [entry]) next (log ++ [entry]) where
  perm := h.perm.append_right _
  inTime := by
    refine List.pairwise_append.mpr ⟨h.inTime, List.pairwise_singleton _ _, ?_⟩
    intro e he e' he'
    rw [List.mem_singleton.mp he']
    exact hpast e he
  replays := by
    refine replays_append.mpr ⟨now, h.replays, ?_⟩
    rw [Replays, hseq]
    exact ⟨rfl, rfl⟩

/-- A call that completes with an answer that was possible finds a place, and what is
possible for others stays so. -/
theorem insert (h : Ordered seq init completed now log)
    (hpossible : Possible seq init log entry.call entry.start entry.answer)
    (hpast : ∀ e ∈ log, e.start ≤ entry.stop) :
    ∃ log', Ordered seq init (completed ++ [entry]) now log' ∧ log'.Perm (entry :: log) ∧
      ∀ call start answer, start ≤ entry.stop → Possible seq init log call start answer →
        Possible seq init log' call start answer := by
  obtain ⟨front, back, state, rfl, hback, hfront, hseq⟩ := hpossible
  have hperm : (front ++ entry :: back).Perm (entry :: (front ++ back)) := List.perm_middle
  refine ⟨front ++ entry :: back, ⟨?_, ?_, ?_⟩, hperm, ?_⟩
  · calc front ++ entry :: back ~ entry :: (front ++ back) := hperm
      _ ~ entry :: completed := h.perm.cons entry
      _ ~ completed ++ [entry] := (List.perm_append_singleton entry completed).symm
  · obtain ⟨hfrontTime, hbackTime, hcross⟩ := List.pairwise_append.mp h.inTime
    refine List.pairwise_append.mpr ⟨hfrontTime, List.pairwise_cons.mpr ⟨hback, hbackTime⟩, ?_⟩
    intro e he e' he'
    rcases List.mem_cons.mp he' with rfl | he'
    · exact hpast e (List.mem_append_left _ he)
    · exact hcross e he e' he'
  · obtain ⟨middle, hmiddle, hrest⟩ := replays_append.mp h.replays
    rw [← hfront.unique hmiddle] at hrest
    refine replays_append.mpr ⟨state, hfront, ?_⟩
    rw [Replays, hseq]
    exact ⟨rfl, hrest⟩
  · intro call start answer hstop hother
    exact hother.insert hstop hfront hseq

end Ordered

/-- Two calls have two orders. -/
theorem Linearizable.pair {first second : Completed Call Answer}
    (h : Linearizable seq init [first, second] now) :
    Replays seq init [first, second] now ∨ Replays seq init [second, first] now := by
  obtain ⟨log, horder⟩ := h
  have hreplays := horder.replays
  rcases List.perm_pair.mp horder.perm with rfl | rfl
  · exact .inl hreplays
  · exact .inr hreplays

end Hyperion.Lib
