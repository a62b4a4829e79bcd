import Mathlib

/-!
# Ring buffers

A ring of `size` slots stores the `i`-th entry of an unbounded sequence in slot
`i % size`.  `Window size Holds entries lo` says that the entries from `lo` on are
in their slots, where `Holds k a` means that slot `k` contains `a`.  Writing the
next entry keeps the window as long as at most `size` entries are in it
(`Window.push`): the slot it reuses belonged to an entry before `lo`.
-/

namespace Hyperion.Lib

variable {α : Type*} {size lo : ℕ} {Holds Holds' : ℕ → α → Prop} {entries : List α}

/-- The entries of the sequence from `lo` on are in their slots. -/
def Window (size : ℕ) (Holds : ℕ → α → Prop) (entries : List α) (lo : ℕ) : Prop :=
  ∀ i a, lo ≤ i → entries[i]? = some a → Holds (i % size) a

theorem Window.advance (hwindow : Window size Holds entries lo) {lo' : ℕ} (hle : lo ≤ lo') :
    Window size Holds entries lo' :=
  fun i a hi => hwindow i a (hle.trans hi)

/-- Slots that keep what they hold keep the window. -/
theorem Window.mono (hwindow : Window size Holds entries lo) (hpos : 0 < size)
    (hkeep : ∀ k a, k < size → Holds k a → Holds' k a) : Window size Holds' entries lo := by
  intro i a hi hget
  exact hkeep _ a (Nat.mod_lt i hpos) (hwindow i a hi hget)

/-- Two entries fewer than `size` apart are in different slots. -/
theorem mod_ne_mod_of_lt {i j : ℕ} (hlt : i < j) (hnear : j < i + size) :
    i % size ≠ j % size := by
  intro heq
  have hdvd : size ∣ j - i := (Nat.modEq_iff_dvd' hlt.le).mp heq
  have hle : size ≤ j - i := Nat.le_of_dvd (by omega) hdvd
  omega

/-- Writing the entry after the last one. -/
theorem Window.push (hwindow : Window size Holds entries lo) (hroom : entries.length < lo + size)
    {a : α} (hnew : Holds' (entries.length % size) a)
    (hkeep : ∀ k b, k < size → k ≠ entries.length % size → Holds k b → Holds' k b) :
    Window size Holds' (entries ++ [a]) lo := by
  intro i b hi hget
  rcases Nat.lt_or_ge i entries.length with hlt | hge
  · rw [List.getElem?_append_left hlt] at hget
    apply hkeep _ _ (Nat.mod_lt i (by omega))
    · exact mod_ne_mod_of_lt hlt (by omega)
    · exact hwindow i b hi hget
  · have hlength := (List.getElem?_eq_some_iff.mp hget).1
    rw [List.length_append, List.length_singleton] at hlength
    obtain rfl : i = entries.length := by omega
    rw [List.getElem?_concat_length, Option.some.injEq] at hget
    rwa [← hget]

end Hyperion.Lib
