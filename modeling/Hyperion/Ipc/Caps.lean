import Hyperion.Ipc.Registry

/-!
# Capability tables

`ipc/caps.rs`: the capabilities of a process, by handle.  A handle comes from a 32-bit
counter that starts at 1 and wraps, and `insert` replaces whatever the table holds
under it.  The `n`-th handle issued is `n` modulo `2^32` (`issued_eq`), so the first
`2^32` handles are distinct and every later one has been issued before.
-/

namespace Hyperion.Ipc

open Hyperion.Lib

/-- The flags of `Rights`, one field for each bit. -/
structure Rights where
  read : Bool
  write : Bool
  send : Bool
  receive : Bool
  transfer : Bool
  duplicate : Bool
  deriving DecidableEq, Repr

abbrev Handle := UInt32

/-- What a capability points at. -/
inductive Capability where
  | port (ref : PortRef)
  deriving DecidableEq, Repr

structure Entry where
  cap : Capability
  rights : Rights
  deriving DecidableEq, Repr

structure CapTable where
  next : UInt32
  entries : OrdMap UInt32 Entry

namespace CapTable

def new : CapTable := ⟨1, .empty⟩

def insert (t : CapTable) (cap : Capability) (rights : Rights) : Handle × CapTable :=
  (t.next, { next := t.next + 1, entries := t.entries.insert t.next ⟨cap, rights⟩ })

def get (t : CapTable) (h : Handle) : Option (Capability × Rights) :=
  (t.entries.get? h).map fun e => (e.cap, e.rights)

def remove (t : CapTable) (h : Handle) : Option Capability × CapTable :=
  ((t.entries.get? h).map Entry.cap, { t with entries := t.entries.erase h })

def len (t : CapTable) : ℕ := t.entries.entries.length

def isEmpty (t : CapTable) : Bool := t.entries.entries.isEmpty

theorem get_insert (t : CapTable) (cap : Capability) (rights : Rights) (h : Handle) :
    (t.insert cap rights).2.get h = if h = t.next then some (cap, rights) else t.get h := by
  unfold get insert
  rw [OrdMap.get?_insert]
  split
  · rfl
  · rfl

theorem get_remove (t : CapTable) (removed h : Handle) :
    (t.remove removed).2.get h = if h = removed then none else t.get h := by
  unfold get remove
  rw [OrdMap.get?_erase]
  split
  · rfl
  · rfl

end CapTable

/-! ## The table as a transition system -/

inductive CapEvent where
  | insert (cap : Capability) (rights : Rights) (handle : Handle)
  | remove (handle : Handle) (answer : Option Capability)
  deriving DecidableEq, Repr

inductive CapStep : CapTable → CapEvent → CapTable → Prop
  | insert (t : CapTable) (cap : Capability) (rights : Rights) :
      CapStep t (.insert cap rights (t.insert cap rights).1) (t.insert cap rights).2
  | remove (t : CapTable) (handle : Handle) :
      CapStep t (.remove handle (t.remove handle).1) (t.remove handle).2

/-- The handle an event issued. -/
def CapEvent.issued : CapEvent → Option Handle
  | .insert _ _ handle => some handle
  | .remove _ _ => none

/-- The handle an event took away. -/
def CapEvent.removed : CapEvent → Option Handle
  | .remove handle (some _) => some handle
  | _ => none

/-- The handles issued so far, in order. -/
def handlesIssued (events : List CapEvent) : List Handle := events.filterMap CapEvent.issued

/-- The handles that were valid and have been removed. -/
def handlesRemoved (events : List CapEvent) : List Handle := events.filterMap CapEvent.removed

/-! ## Handles -/

/-- The first `n` values of the counter. -/
def firstHandles (n : ℕ) : List Handle := (List.range n).map fun i => UInt32.ofNat (i + 1)

theorem firstHandles_succ (n : ℕ) :
    firstHandles (n + 1) = firstHandles n ++ [UInt32.ofNat (n + 1)] := by
  rw [firstHandles, List.range_succ, List.map_append]
  rfl

theorem mem_firstHandles {n : ℕ} {h : Handle} :
    h ∈ firstHandles n ↔ ∃ i < n, h = UInt32.ofNat (i + 1) := by
  simp [firstHandles, eq_comm]

/-- The counter repeats itself only after `2^32` steps. -/
theorem ofNat_mem_firstHandles_iff (n : ℕ) :
    UInt32.ofNat (n + 1) ∈ firstHandles n ↔ 2 ^ 32 ≤ n := by
  rw [mem_firstHandles]
  constructor
  · rintro ⟨i, hi, heq⟩
    have hmod : (n + 1) % 2 ^ 32 = (i + 1) % 2 ^ 32 := by
      simpa using congrArg UInt32.toNat heq
    omega
  · intro hle
    refine ⟨n - 2 ^ 32, by omega, ?_⟩
    apply UInt32.toNat_inj.mp
    rw [UInt32.toNat_ofNat', UInt32.toNat_ofNat']
    omega

/-! ## The invariant -/

/-- What the history says about a table.  That removed handles are gone is only true
before the counter wraps. -/
structure CapHistory (events : List CapEvent) (t : CapTable) : Prop where
  issued_eq : handlesIssued events = firstHandles (handlesIssued events).length
  next_eq : t.next = UInt32.ofNat ((handlesIssued events).length + 1)
  live : ∀ h, t.get h ≠ none → h ∈ handlesIssued events
  removed_issued : ∀ h ∈ handlesRemoved events, h ∈ handlesIssued events
  removed_gone : (handlesIssued events).length ≤ 2 ^ 32 →
    ∀ h ∈ handlesRemoved events, t.get h = none

theorem capHistory_new : CapHistory [] CapTable.new where
  issued_eq := rfl
  next_eq := rfl
  live := by simp [CapTable.new, CapTable.get, OrdMap.empty, OrdMap.get?]
  removed_issued := by simp [handlesRemoved]
  removed_gone := by simp [handlesRemoved]

section Steps

variable {events : List CapEvent} {t : CapTable}

/-- The next handle was issued before exactly when the counter has wrapped. -/
theorem CapHistory.next_mem_iff (history : CapHistory events t) :
    t.next ∈ handlesIssued events ↔ 2 ^ 32 ≤ (handlesIssued events).length := by
  rw [history.next_eq, history.issued_eq]
  simpa [firstHandles] using ofNat_mem_firstHandles_iff (handlesIssued events).length

theorem capHistory_insert (history : CapHistory events t) (cap : Capability) (rights : Rights) :
    CapHistory (events ++ [.insert cap rights (t.insert cap rights).1])
      (t.insert cap rights).2 := by
  have hissued : handlesIssued (events ++ [.insert cap rights (t.insert cap rights).1]) =
      handlesIssued events ++ [t.next] := by
    simp [handlesIssued, CapEvent.issued, CapTable.insert]
  have hremoved : handlesRemoved (events ++ [.insert cap rights (t.insert cap rights).1]) =
      handlesRemoved events := by
    simp [handlesRemoved, CapEvent.removed]
  constructor
  case issued_eq =>
    rw [hissued, List.length_append, List.length_singleton, firstHandles_succ, ← history.issued_eq,
      history.next_eq]
  case next_eq =>
    rw [hissued, List.length_append, List.length_singleton]
    change t.next + 1 = _
    rw [history.next_eq, UInt32.ofNat_add (_ + 1) 1]
    rfl
  case live =>
    intro h hlive
    rw [CapTable.get_insert] at hlive
    rw [hissued, List.mem_append, List.mem_singleton]
    split at hlive
    · rename_i heq
      exact .inr heq
    · exact .inl (history.live h hlive)
  case removed_issued =>
    intro h hmem
    rw [hremoved] at hmem
    rw [hissued]
    exact List.mem_append_left _ (history.removed_issued h hmem)
  case removed_gone =>
    intro hcount h hmem
    rw [hissued, List.length_append, List.length_singleton] at hcount
    rw [hremoved] at hmem
    have hne : h ≠ t.next := by
      rintro rfl
      have := history.next_mem_iff.mp (history.removed_issued _ hmem)
      omega
    rw [CapTable.get_insert, if_neg hne]
    exact history.removed_gone (by omega) h hmem

theorem capHistory_remove (history : CapHistory events t) (handle : Handle) :
    CapHistory (events ++ [.remove handle (t.remove handle).1]) (t.remove handle).2 := by
  have hissued : handlesIssued (events ++ [.remove handle (t.remove handle).1]) =
      handlesIssued events := by
    simp [handlesIssued, CapEvent.issued]
  have hremoved : ∀ h ∈ handlesRemoved (events ++ [.remove handle (t.remove handle).1]),
      h ∈ handlesRemoved events ∨ h = handle ∧ t.get handle ≠ none := by
    intro h hmem
    unfold handlesRemoved at hmem ⊢
    rw [List.filterMap_append, List.mem_append] at hmem
    refine hmem.imp_right fun hlast => ?_
    cases hentry : t.entries.get? handle with
    | none => simp [CapTable.remove, hentry, CapEvent.removed] at hlast
    | some entry =>
      simp [CapTable.remove, hentry, CapEvent.removed] at hlast
      exact ⟨hlast, by simp [CapTable.get, hentry]⟩
  constructor
  case issued_eq => rw [hissued, ← history.issued_eq]
  case next_eq =>
    rw [hissued]
    exact history.next_eq
  case live =>
    intro h hlive
    rw [CapTable.get_remove] at hlive
    rw [hissued]
    split at hlive
    · exact absurd rfl hlive
    · exact history.live h hlive
  case removed_issued =>
    intro h hmem
    rw [hissued]
    rcases hremoved h hmem with hold | ⟨rfl, hlive⟩
    · exact history.removed_issued h hold
    · exact history.live h hlive
  case removed_gone =>
    intro hcount h hmem
    rw [hissued] at hcount
    rw [CapTable.get_remove]
    split
    · rfl
    · rename_i hne
      rcases hremoved h hmem with hold | ⟨heq, _⟩
      · exact history.removed_gone hcount h hold
      · exact absurd heq hne

end Steps

theorem run_capHistory {events : List CapEvent} {t : CapTable}
    (run : Run CapStep CapTable.new events t) : CapHistory events t := by
  refine run.history_invariant CapHistory capHistory_new ?_
  intro events t event next history step
  cases step with
  | insert cap rights => exact capHistory_insert history cap rights
  | remove handle => exact capHistory_remove history handle

/-- **`insert` issues a fresh handle until the counter wraps.**  In every reachable
table, `insert` returns a handle that was never issued before and holds nothing, keeps
the capability of every other handle, and revives no removed handle, exactly when fewer
than `2^32` handles have been issued. -/
theorem insert_fresh_iff (events : List CapEvent) (t : CapTable)
    (run : Run CapStep CapTable.new events t) (cap : Capability) (rights : Rights) :
    ((t.insert cap rights).1 ∉ handlesIssued events ∧ t.get (t.insert cap rights).1 = none ∧
      (∀ h, h ≠ (t.insert cap rights).1 → (t.insert cap rights).2.get h = t.get h) ∧
      ∀ h ∈ handlesRemoved events, (t.insert cap rights).2.get h = none) ↔
      (handlesIssued events).length < 2 ^ 32 := by
  have history := run_capHistory run
  have hnext : (t.insert cap rights).1 = t.next := rfl
  rw [hnext]
  constructor
  · rintro ⟨hfresh, _⟩
    by_contra hcount
    exact hfresh (history.next_mem_iff.mpr (by omega))
  · intro hcount
    have hfresh : t.next ∉ handlesIssued events := by
      intro hmem
      have := history.next_mem_iff.mp hmem
      omega
    refine ⟨hfresh, ?_, ?_, ?_⟩
    · by_contra hlive
      exact hfresh (history.live _ hlive)
    · intro h hne
      rw [CapTable.get_insert, if_neg hne]
    · intro h hmem
      have hne : h ≠ t.next := fun heq => hfresh (heq ▸ history.removed_issued h hmem)
      rw [CapTable.get_insert, if_neg hne]
      exact history.removed_gone hcount.le h hmem

/-- A handle is issued and removed; the next one is another. -/
theorem insert_fresh_iff_removed :
    let cap := Capability.port 0
    let rights : Rights := ⟨true, false, false, true, false, false⟩
    let t := ((CapTable.new.insert cap rights).2.remove 1).2
    (t.insert cap rights).1 ∉ [(1 : Handle)] ∧ (t.insert cap rights).2.get 1 = none := by
  intro cap rights t
  have hrun := Run.nil.snoc (CapStep.insert CapTable.new cap rights) |>.snoc (CapStep.remove _ 1)
  obtain ⟨hfresh, _, _, hgone⟩ := (insert_fresh_iff _ _ hrun cap rights).mpr (by decide)
  exact ⟨hfresh, hgone 1 (by decide +kernel)⟩

/-- After the first insertion, each further one is followed by the removal of its handle. -/
theorem exists_run_kept (cap : Capability) (rights : Rights) {n : ℕ} (hn : n < 2 ^ 32) :
    ∃ events t, Run CapStep CapTable.new events t ∧ (handlesIssued events).length = n + 1 ∧
      ∀ h, t.get h = if h = 1 then some (cap, rights) else none := by
  induction n with
  | zero =>
    refine ⟨_, _, Run.nil.snoc (.insert CapTable.new cap rights), rfl, fun h => ?_⟩
    rw [CapTable.get_insert]
    rfl
  | succ n ih =>
    obtain ⟨events, t, run, hcount, hget⟩ := ih (by omega)
    have history := run_capHistory run
    have hne : t.next ≠ 1 := by
      intro hnext
      have hissued := history.live 1 (by simp [hget])
      rw [← hnext, history.next_mem_iff] at hissued
      omega
    refine ⟨_, _, (run.snoc (.insert t cap rights)).snoc (.remove _ t.next), ?_, fun h => ?_⟩
    · rw [handlesIssued] at hcount
      simp [handlesIssued, CapEvent.issued, hcount]
    · rw [CapTable.get_remove, CapTable.get_insert, hget]
      by_cases hself : h = t.next
      · rw [if_pos hself, if_neg (hself ▸ hne)]
      · rw [if_neg hself, if_neg hself]

/-- After `2^32` insertions the next one returns a handle that is in use and replaces
its capability, though it is the only one in use. -/
theorem insert_overwrites :
    ∃ (events : List CapEvent) (t : CapTable) (rights : Rights),
      Run CapStep CapTable.new events t ∧ (∀ h, t.get h ≠ none → h = 1) ∧
        (t.insert (.port 1) rights).1 = 1 ∧ 1 ∈ handlesIssued events ∧
        t.get 1 = some (.port 0, rights) ∧
        (t.insert (.port 1) rights).2.get 1 = some (.port 1, rights) := by
  let rights : Rights := ⟨true, false, false, true, false, false⟩
  have hlast : 2 ^ 32 - 1 < 2 ^ 32 := by norm_num
  obtain ⟨events, t, run, hcount, hget⟩ := exists_run_kept (.port 0) rights hlast
  have history := run_capHistory run
  have hnext : t.next = 1 := by
    rw [history.next_eq, hcount]
    decide
  have hlive : t.get 1 = some (.port 0, rights) := (hget 1).trans (if_pos rfl)
  refine ⟨events, t, rights, run, fun h => ?_, hnext, history.live 1 (by simp [hlive]), hlive, ?_⟩
  · rw [hget]
    exact not_imp_comm.mp fun hne => if_neg hne
  · rw [CapTable.get_insert, hnext]
    exact if_pos rfl

end Hyperion.Ipc
