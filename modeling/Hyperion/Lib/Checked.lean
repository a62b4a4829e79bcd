import Mathlib

/-!
# Computations that may fault

In a program compiled to abort on panic, an index out of range, an arithmetic
overflow in a checked build and a failed `expect` or `assert` all stop the machine.  A piece
of code in which that matters is modelled in `Checked`, where each such
operation either returns or names its fault.  `Returns x post` says that `x`
does not fault and that its value satisfies `post`; the rules below follow the
shape of the code, one for each way of putting computations together.

Loops without an evident bound carry fuel.  Running out of it is a fault too, so
`Returns (loop body fuel s) post` also says that the loop ends within `fuel`
turns.
-/

namespace Hyperion.Lib

variable {α β σ ρ : Type}

/-- The ways a computation can stop the machine. -/
inductive Fault where
  | indexOutOfRange
  | sliceOutOfRange
  | overflow
  | expectFailed
  | assertFailed
  | capacityOverflow
  | outOfFuel
  deriving DecidableEq, Repr

/-- A computation that returns a value or faults. -/
abbrev Checked (α : Type) := Except Fault α

/-- `x` does not fault, and its value satisfies `post`. -/
def Returns (x : Checked α) (post : α → Prop) : Prop :=
  ∃ a, x = .ok a ∧ post a

theorem returns_pure {a : α} {post : α → Prop} (h : post a) : Returns (pure a) post :=
  ⟨a, rfl, h⟩

theorem Returns.mono {x : Checked α} {post post' : α → Prop} (hx : Returns x post)
    (himp : ∀ a, post a → post' a) : Returns x post' := by
  obtain ⟨a, rfl, ha⟩ := hx
  exact ⟨a, rfl, himp a ha⟩

/-- The sequencing rule: what the first computation guarantees is what the second
one may assume. -/
theorem Returns.bind {x : Checked α} {f : α → Checked β} {mid : α → Prop} {post : β → Prop}
    (hx : Returns x mid) (hf : ∀ a, mid a → Returns (f a) post) : Returns (x >>= f) post := by
  obtain ⟨a, rfl, ha⟩ := hx
  exact hf a ha

/-- Inversion of a sequence that returned, whatever its errors are. -/
theorem bind_eq_ok {ε : Type} {x : Except ε α} {f : α → Except ε β} {b : β} :
    (x >>= f) = .ok b ↔ ∃ a, x = .ok a ∧ f a = .ok b := by
  cases x with
  | error e => simp [Bind.bind, Except.bind]
  | ok a => simp [Bind.bind, Except.bind]

/-! ## Indexing and slicing -/

/-- `xs[i]`. -/
def index (xs : List α) (i : ℕ) : Checked α :=
  match xs[i]? with
  | some a => .ok a
  | none => .error .indexOutOfRange

/-- `xs[i] = a`. -/
def setIndex (xs : List α) (i : ℕ) (a : α) : Checked (List α) :=
  if i < xs.length then .ok (xs.set i a) else .error .indexOutOfRange

/-- `&xs[lo..hi]`. -/
def slice (xs : List α) (lo hi : ℕ) : Checked (List α) :=
  if lo ≤ hi ∧ hi ≤ xs.length then .ok ((xs.drop lo).take (hi - lo))
  else .error .sliceOutOfRange

theorem index_eq_ok {xs : List α} {i : ℕ} {a : α} : index xs i = .ok a ↔ xs[i]? = some a := by
  unfold index
  cases xs[i]? with
  | none => simp
  | some b => simp

theorem index_of_lt {xs : List α} {i : ℕ} (h : i < xs.length) : index xs i = .ok xs[i] :=
  index_eq_ok.mpr (List.getElem?_eq_getElem h)

theorem setIndex_of_lt {xs : List α} {i : ℕ} (a : α) (h : i < xs.length) :
    setIndex xs i a = .ok (xs.set i a) :=
  if_pos h

theorem slice_of_le {xs : List α} {lo hi : ℕ} (hlo : lo ≤ hi) (hhi : hi ≤ xs.length) :
    slice xs lo hi = .ok ((xs.drop lo).take (hi - lo)) :=
  if_pos ⟨hlo, hhi⟩

theorem slice_eq_ok {xs out : List α} {lo hi : ℕ} :
    slice xs lo hi = .ok out ↔
      lo ≤ hi ∧ hi ≤ xs.length ∧ (xs.drop lo).take (hi - lo) = out := by
  unfold slice
  split
  · rename_i hle
    simp [hle]
  · rename_i hgt
    simp only [reduceCtorEq, false_iff]
    exact fun h => hgt ⟨h.1, h.2.1⟩

/-- `xs[i]` on an array of fixed length. -/
def indexArray {n : ℕ} (xs : Vector α n) (i : ℕ) : Checked α :=
  if h : i < n then .ok xs[i] else .error .indexOutOfRange

/-- `xs[i] = a` on an array of fixed length. -/
def setArray {n : ℕ} (xs : Vector α n) (i : ℕ) (a : α) : Checked (Vector α n) :=
  if i < n then .ok (xs.setIfInBounds i a) else .error .indexOutOfRange

theorem indexArray_of_lt {n : ℕ} {xs : Vector α n} {i : ℕ} (h : i < n) :
    indexArray xs i = .ok xs[i] :=
  dif_pos h

theorem setArray_of_lt {n : ℕ} {xs : Vector α n} {i : ℕ} (a : α) (h : i < n) :
    setArray xs i a = .ok (xs.setIfInBounds i a) :=
  if_pos h

/-! ## Machine arithmetic on `usize` -/

/-- One more than the largest `usize`. -/
def usizeBound : ℕ := 2 ^ 64

/-- `isize::MAX`, which bounds the bytes of one allocation. -/
def isizeMax : ℕ := 2 ^ 63 - 1

/-- `a + b` on `usize`. -/
def addUsize (a b : ℕ) : Checked ℕ :=
  if a + b < usizeBound then .ok (a + b) else .error .overflow

/-- `a * b` on `usize`. -/
def mulUsize (a b : ℕ) : Checked ℕ :=
  if a * b < usizeBound then .ok (a * b) else .error .overflow

/-- `a - b` on `usize`. -/
def subUsize (a b : ℕ) : Checked ℕ :=
  if b ≤ a then .ok (a - b) else .error .overflow

/-- `a.checked_add(b)` on `usize`. -/
def checkedAddUsize (a b : ℕ) : Option ℕ := if a + b < usizeBound then some (a + b) else none

/-- `a.saturating_add(b)` on `usize`. -/
def saturatingAddUsize (a b : ℕ) : ℕ := min (a + b) (usizeBound - 1)

theorem addUsize_of_lt {a b : ℕ} (h : a + b < usizeBound) : addUsize a b = .ok (a + b) :=
  if_pos h

theorem addUsize_eq_ok {a b c : ℕ} : addUsize a b = .ok c ↔ a + b < usizeBound ∧ a + b = c := by
  unfold addUsize
  split
  · rename_i hlt
    simp [hlt]
  · rename_i hge
    simp [hge]

theorem mulUsize_of_lt {a b : ℕ} (h : a * b < usizeBound) : mulUsize a b = .ok (a * b) :=
  if_pos h

theorem subUsize_of_le {a b : ℕ} (h : b ≤ a) : subUsize a b = .ok (a - b) :=
  if_pos h

/-! ## Loops -/

/-- One turn of a loop either goes round again or leaves it. -/
inductive Turn (σ ρ : Type) where
  | again (state : σ)
  | leave (result : ρ)

/-- `loop { body }`, for at most `fuel` turns. -/
def loop (body : σ → Checked (Turn σ ρ)) : ℕ → σ → Checked ρ
  | 0, _ => .error .outOfFuel
  | fuel + 1, state => do
      match ← body state with
      | .again next => loop body fuel next
      | .leave result => pure result

variable {body : σ → Checked (Turn σ ρ)}

theorem loop_again {state next : σ} (hbody : body state = .ok (.again next)) (fuel : ℕ) :
    loop body (fuel + 1) state = loop body fuel next := by
  simp only [loop, hbody]
  rfl

theorem loop_leave {state : σ} {result : ρ} (hbody : body state = .ok (.leave result)) (fuel : ℕ) :
    loop body (fuel + 1) state = .ok result := by
  simp only [loop, hbody]
  rfl

/-- What a turn must establish: the invariant and progress when it goes round
again, the postcondition when it leaves. -/
def TurnPost (Inv : σ → Prop) (size : σ → ℕ) (post : ρ → Prop) (before : σ) : Turn σ ρ → Prop
  | .again next => Inv next ∧ size next < size before
  | .leave result => post result

/-- The total-correctness rule for loops: an invariant and a measure that
decreases at every turn that goes round again. -/
theorem returns_loop {Inv : σ → Prop} {size : σ → ℕ} {post : ρ → Prop}
    (hbody : ∀ state, Inv state → Returns (body state) (TurnPost Inv size post state)) :
    ∀ (fuel : ℕ) (state : σ), Inv state → size state < fuel →
      Returns (loop body fuel state) post := by
  intro fuel
  induction fuel with
  | zero => intro state _ hsize; exact absurd hsize (Nat.not_lt_zero _)
  | succ fuel ih =>
    intro state hinv hsize
    refine (hbody state hinv).bind ?_
    rintro (next | result) hturn
    · exact ih next hturn.1 (lt_of_lt_of_le hturn.2 (Nat.lt_succ_iff.mp hsize))
    · exact returns_pure hturn

/-- A turn with its state and its result mapped. -/
def Turn.map {τ π : Type} (g : σ → τ) (h : ρ → π) : Turn σ ρ → Turn τ π
  | .again state => .again (g state)
  | .leave result => .leave (h result)

/-- The rule for two loops in step: if each turn of the second is the image of a turn of
the first, then so is the whole loop. -/
theorem loop_map {τ π : Type} {body' : τ → Checked (Turn τ π)} {Inv : σ → Prop} {g : σ → τ}
    {h : ρ → π} (hbody : ∀ state, Inv state → body' (g state) = (body state).map (Turn.map g h))
    (hinv : ∀ state next, Inv state → body state = .ok (.again next) → Inv next) :
    ∀ (fuel : ℕ) (state : σ), Inv state →
      loop body' fuel (g state) = (loop body fuel state).map h := by
  intro fuel
  induction fuel with
  | zero => intro state _; rfl
  | succ fuel ih =>
    intro state hstate
    rw [loop, loop, hbody state hstate]
    cases hturn : body state with
    | error fault => rfl
    | ok turn =>
      cases turn with
      | again next => exact ih next (hinv state next hstate hturn)
      | leave result => rfl

/-- More fuel does not change a result. -/
theorem loop_eq_ok_of_le {result : ρ} :
    ∀ {fuel larger : ℕ} {state : σ}, fuel ≤ larger → loop body fuel state = .ok result →
      loop body larger state = .ok result := by
  intro fuel
  induction fuel with
  | zero => intro larger state _ hloop; simp [loop] at hloop
  | succ fuel ih =>
    intro larger state hle hloop
    obtain ⟨larger, rfl⟩ : ∃ n, larger = n + 1 := ⟨larger - 1, by omega⟩
    obtain ⟨turn, hturn, hrest⟩ := bind_eq_ok.mp hloop
    refine bind_eq_ok.mpr ⟨turn, hturn, ?_⟩
    cases turn with
    | again next => exact ih (Nat.le_of_succ_le_succ hle) hrest
    | leave out => exact hrest

/-- A loop that runs a step for each number up to `n` and then leaves. -/
theorem loop_eq_foldlM {τ : Type} {body : σ → Checked (Turn σ τ)} {state : ℕ → τ → σ}
    {f : τ → ℕ → Checked τ} {n : ℕ}
    (hagain : ∀ i < n, ∀ t, body (state i t) =
      do let next ← f t i; pure (.again (state (i + 1) next)))
    (hleave : ∀ t, body (state n t) = do let last ← f t n; pure (.leave last)) :
    ∀ (left i : ℕ), i + left = n → ∀ (fuel : ℕ), left < fuel → ∀ t : τ,
      loop body fuel (state i t) = (List.range' i (left + 1)).foldlM f t := by
  intro left
  induction left with
  | zero =>
    intro i hi fuel hfuel t
    obtain rfl : i = n := hi
    obtain ⟨fuel, rfl⟩ := Nat.exists_eq_succ_of_ne_zero hfuel.ne'
    rw [loop, hleave, bind_assoc, List.range'_succ, List.foldlM_cons]
    rfl
  | succ left ih =>
    intro i hi fuel hfuel t
    obtain ⟨fuel, rfl⟩ := Nat.exists_eq_succ_of_ne_zero (Nat.ne_zero_of_lt hfuel)
    rw [loop, hagain i (by omega), bind_assoc, List.range'_succ, List.foldlM_cons]
    refine congrArg _ (funext fun next => ?_)
    exact ih (i + 1) (by omega) fuel (by omega) next

/-- The rule for a fold: every turn keeps the invariant. -/
theorem returns_foldlM {Inv : β → Prop} {f : β → α → Checked β} {list : List α}
    (hturn : ∀ a ∈ list, ∀ b, Inv b → Returns (f b a) Inv) :
    ∀ {b : β}, Inv b → Returns (list.foldlM f b) Inv := by
  induction list with
  | nil => exact fun hb => returns_pure hb
  | cons a rest ih =>
    intro b hb
    rw [List.foldlM_cons]
    refine (hturn a List.mem_cons_self b hb).bind fun next hnext => ?_
    exact ih (fun a' ha' => hturn a' (List.mem_cons_of_mem _ ha')) hnext

/-- The rule for `for i in 0..n`, with an invariant that knows the turn. -/
theorem returns_foldlM_range {Inv : ℕ → β → Prop} {f : β → ℕ → Checked β} {n : ℕ} {b : β}
    (hturn : ∀ i < n, ∀ b, Inv i b → Returns (f b i) (Inv (i + 1))) (hb : Inv 0 b) :
    Returns ((List.range n).foldlM f b) (Inv n) := by
  induction n with
  | zero => exact returns_pure hb
  | succ n ih =>
    rw [List.range_succ, List.foldlM_append]
    apply (ih fun i hi => hturn i (Nat.lt_succ_of_lt hi)).bind
    intro next hnext
    rw [List.foldlM_cons]
    apply (hturn n (Nat.lt_succ_self n) next hnext).bind
    exact fun last hlast => returns_pure hlast

/-! ## Faults of several kinds -/

section Ends

variable {ε : Type}

/-- If `x` returns, its value satisfies `post`; if it does not, its error satisfies
`excuse`. -/
def Ends (x : Except ε α) (post : α → Prop) (excuse : ε → Prop) : Prop :=
  match x with
  | .ok a => post a
  | .error e => excuse e

variable {post : α → Prop} {excuse : ε → Prop}

theorem ends_pure {a : α} (ha : post a) : Ends (pure a : Except ε α) post excuse := ha

theorem Ends.mono {x : Except ε α} {post' : α → Prop} {excuse' : ε → Prop}
    (hx : Ends x post excuse) (hpost : ∀ a, post a → post' a)
    (hexcuse : ∀ e, excuse e → excuse' e) : Ends x post' excuse' := by
  cases x with
  | error e => exact hexcuse e hx
  | ok a => exact hpost a hx

theorem Ends.bind {x : Except ε α} {f : α → Except ε β} {mid : α → Prop} {post : β → Prop}
    (hx : Ends x mid excuse) (hf : ∀ a, mid a → Ends (f a) post excuse) :
    Ends (x >>= f) post excuse := by
  cases x with
  | error e => exact hx
  | ok a => exact hf a hx

/-- What does not fault needs no excuse, whatever its fault would have been called. -/
theorem Returns.ends {x : Checked α} (hx : Returns x post) (g : Fault → ε) :
    Ends (x.mapError g) post excuse := by
  obtain ⟨a, rfl, ha⟩ := hx
  exact ha

/-- What has no excuse returns. -/
theorem Ends.exists_ok {x : Except ε α} (hx : Ends x post fun _ => False) :
    ∃ a, x = .ok a ∧ post a := by
  cases x with
  | error e => cases hx
  | ok a => exact ⟨a, rfl, hx⟩

theorem returns_iff_ends {x : Checked α} : Returns x post ↔ Ends x post fun _ => False := by
  constructor
  · rintro ⟨a, rfl, ha⟩
    exact ha
  · exact Ends.exists_ok

theorem ends_foldlM {Inv : β → Prop} {f : β → α → Except ε β} {list : List α}
    (hturn : ∀ a ∈ list, ∀ b, Inv b → Ends (f b a) Inv excuse) :
    ∀ {b : β}, Inv b → Ends (list.foldlM f b) Inv excuse := by
  induction list with
  | nil => exact fun hb => ends_pure hb
  | cons a rest ih =>
    intro b hb
    rw [List.foldlM_cons]
    refine (hturn a List.mem_cons_self b hb).bind fun next hnext => ?_
    exact ih (fun a' ha' => hturn a' (List.mem_cons_of_mem _ ha')) hnext

/-! ### Folds that returned -/

variable {P Q : β → Prop} {f : β → α → Except ε β} {list : List α} {b out : β}

/-- What no turn undoes is still there at the end. -/
theorem foldlM_keeps (hkeep : ∀ a ∈ list, ∀ b next, f b a = .ok next → P b → P next)
    (hfold : list.foldlM f b = .ok out) (hb : P b) : P out := by
  have hends : Ends (list.foldlM f b) P fun _ => True := by
    refine ends_foldlM (fun a ha b hb => ?_) hb
    cases hturn : f b a with
    | error e => trivial
    | ok next => exact hkeep a ha b next hturn hb
  rw [hfold] at hends
  exact hends

/-- What one turn does and no turn undoes is there at the end.  `Q` is what the turns before
it leave. -/
theorem foldlM_of_mem {a : α} (ha : a ∈ list)
    (hpre : ∀ a ∈ list, ∀ b next, f b a = .ok next → Q b → Q next)
    (hturn : ∀ b next, f b a = .ok next → Q b → P next)
    (hkeep : ∀ a ∈ list, ∀ b next, f b a = .ok next → P b → P next)
    (hfold : list.foldlM f b = .ok out) (hb : Q b) : P out := by
  obtain ⟨front, back, rfl⟩ := List.append_of_mem ha
  rw [List.foldlM_append] at hfold
  obtain ⟨mid, hfront, hrest⟩ := bind_eq_ok.mp hfold
  rw [List.foldlM_cons] at hrest
  obtain ⟨next, hnext, hback⟩ := bind_eq_ok.mp hrest
  have hmid := foldlM_keeps (fun a ha => hpre a (by simp [ha])) hfront hb
  exact foldlM_keeps (fun a ha => hkeep a (by simp [ha])) hback (hturn mid next hnext hmid)

/-- The states that the turns go through. -/
theorem exists_states_of_foldlM (hfold : list.foldlM f b = .ok out) :
    ∃ states : ℕ → β, states 0 = b ∧ states list.length = out ∧
      ∀ (k : ℕ) (hk : k < list.length), f (states k) list[k] = .ok (states (k + 1)) := by
  induction list generalizing b with
  | nil => exact ⟨fun _ => b, rfl, Except.ok.inj hfold, fun k hk => absurd hk (Nat.not_lt_zero k)⟩
  | cons a list ih =>
    rw [List.foldlM_cons] at hfold
    obtain ⟨next, hturn, hrest⟩ := bind_eq_ok.mp hfold
    obtain ⟨states, hfirst, hlast, hstates⟩ := ih hrest
    refine ⟨fun k => Nat.casesOn k b states, rfl, hlast, ?_⟩
    intro k hk
    cases k with
    | zero => exact hturn.trans (congrArg Except.ok hfirst.symm)
    | succ k => exact hstates k (Nat.lt_of_succ_lt_succ hk)

end Ends

end Hyperion.Lib
