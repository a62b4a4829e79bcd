import Hyperion.Lib.Checked

/-!
# Computations that leave a trace

A computation of `Traced ε α` returns a value or faults, as one of `Checked α` does,
and lists the events of type `ε` it caused on the way, those before a fault
included.  `x.All p` says that every event satisfies `p`; the rules below follow the
shape of the code and are equivalences, so that the weakest condition under which
a program causes only good events can be computed by rewriting.
-/

namespace Hyperion.Lib

variable {ε α β σ ρ : Type}

/-- A computation with the events it causes. -/
@[ext] structure Traced (ε α : Type) where
  trace : List ε
  result : Checked α

namespace Traced

instance : Monad (Traced ε) where
  pure a := ⟨[], .ok a⟩
  bind x f :=
    match x.result with
    | .ok a => ⟨x.trace ++ (f a).trace, (f a).result⟩
    | .error fault => ⟨x.trace, .error fault⟩

/-- A computation without events. -/
instance : MonadLift (Except Fault) (Traced ε) where
  monadLift x := ⟨[], x⟩

/-- An event and the value it delivers. -/
def emit (event : ε) (a : α) : Traced ε α := ⟨[event], .ok a⟩

@[simp] theorem trace_pure (a : α) : (pure a : Traced ε α).trace = [] := rfl

@[simp] theorem result_pure (a : α) : (pure a : Traced ε α).result = .ok a := rfl

@[simp] theorem result_lift (x : Checked α) : (liftM x : Traced ε α).result = x := rfl

@[simp] theorem trace_lift (x : Checked α) : (liftM x : Traced ε α).trace = [] := rfl

@[simp] theorem result_emit (event : ε) (a : α) : (emit event a).result = .ok a := rfl

/-- Sequencing returns what the values return. -/
@[simp] theorem result_bind (x : Traced ε α) (f : α → Traced ε β) :
    (x >>= f).result = x.result >>= fun a => (f a).result := by
  show (match x.result with
    | .ok a => (⟨x.trace ++ (f a).trace, (f a).result⟩ : Traced ε β)
    | .error fault => ⟨x.trace, .error fault⟩).result = _
  cases x.result with
  | ok a => rfl
  | error fault => rfl

/-- The case in which the first part is known to return. -/
theorem result_bind_of_ok {x : Traced ε α} {a : α} (hx : x.result = .ok a) (f : α → Traced ε β) :
    (x >>= f).result = (f a).result := by
  rw [result_bind, hx]
  rfl

theorem result_addUsize {a b : ℕ} (hlt : a + b < usizeBound) :
    (liftM (addUsize a b) : Traced ε ℕ).result = .ok (a + b) :=
  addUsize_of_lt hlt

/-! ## Events -/

/-- Every event satisfies `p`. -/
def All (p : ε → Prop) (x : Traced ε α) : Prop := ∀ event ∈ x.trace, p event

variable {p : ε → Prop}

instance [DecidablePred p] (x : Traced ε α) : Decidable (x.All p) :=
  inferInstanceAs (Decidable (∀ event ∈ x.trace, p event))

@[simp] theorem all_pure (a : α) : (pure a : Traced ε α).All p ↔ True := by
  simp [All]

@[simp] theorem all_lift (x : Checked α) : (liftM x : Traced ε α).All p ↔ True := by
  simp [All]

@[simp] theorem all_emit (event : ε) (a : α) : (emit event a).All p ↔ p event := by
  simp [All, emit]

/-- A sequence causes only good events if its first part does and, where that
returns, the rest does. -/
theorem all_bind (x : Traced ε α) (f : α → Traced ε β) :
    (x >>= f).All p ↔ x.All p ∧ ∀ a, x.result = .ok a → (f a).All p := by
  have htrace : (x >>= f).trace = match x.result with
      | .ok a => x.trace ++ (f a).trace
      | .error _ => x.trace := by
    show (match x.result with
      | .ok a => (⟨x.trace ++ (f a).trace, (f a).result⟩ : Traced ε β)
      | .error fault => ⟨x.trace, .error fault⟩).trace = _
    cases x.result with
    | ok a => rfl
    | error fault => rfl
  unfold All
  rw [htrace]
  cases x.result with
  | error fault => simp
  | ok a =>
    simp only [List.mem_append, or_imp, forall_and, Except.ok.injEq]
    constructor
    · rintro ⟨hfirst, hsecond⟩
      exact ⟨hfirst, fun _ heq => heq ▸ hsecond⟩
    · rintro ⟨hfirst, hsecond⟩
      exact ⟨hfirst, hsecond a rfl⟩

/-- The case in which the first part is known to return. -/
theorem all_bind_of_ok {x : Traced ε α} {a : α} (hx : x.result = .ok a) (f : α → Traced ε β) :
    (x >>= f).All p ↔ x.All p ∧ (f a).All p := by
  rw [all_bind]
  simp [hx]

/-! ## Loops -/

/-- `loop { body }`, for at most `fuel` turns. -/
def loop (body : σ → Traced ε (Turn σ ρ)) : ℕ → σ → Traced ε ρ
  | 0, _ => ⟨[], .error .outOfFuel⟩
  | fuel + 1, state => do
      match ← body state with
      | .again next => loop body fuel next
      | .leave result => pure result

/-- The loop returns what the loop over the values returns. -/
theorem result_loop (body : σ → Traced ε (Turn σ ρ)) (fuel : ℕ) (state : σ) :
    (loop body fuel state).result = Lib.loop (fun s => (body s).result) fuel state := by
  induction fuel generalizing state with
  | zero => rfl
  | succ fuel ih =>
    rw [loop, Lib.loop, result_bind]
    congr 1
    funext turn
    cases turn with
    | again next => exact ih next
    | leave result => rfl

/-- The events of a loop are those of its first turn and of the turns after it. -/
theorem all_loop_succ (body : σ → Traced ε (Turn σ ρ)) (fuel : ℕ) (state : σ) :
    (loop body (fuel + 1) state).All p ↔ (body state).All p ∧
      ∀ next, (body state).result = .ok (.again next) → (loop body fuel next).All p := by
  rw [loop, all_bind]
  constructor
  · rintro ⟨hturn, hrest⟩
    exact ⟨hturn, fun next hnext => hrest (.again next) hnext⟩
  · rintro ⟨hturn, hrest⟩
    refine ⟨hturn, ?_⟩
    intro turn hresult
    cases turn with
    | again next => exact hrest next hresult
    | leave result => simp

end Traced

end Hyperion.Lib
