import Mathlib

/-!
# Attempts that leave a trace

A computation of `Attempt ε α` returns a value or gives up, as one of `Option α` does, and lists
the events of type `ε` it caused on the way, those before it gave up included.  `x.All p` says
that every event satisfies `p`.
-/

namespace Hyperion.Lib

variable {ε α β σ : Type}

/-- A computation that may give up, with the events it causes. -/
@[ext] structure Attempt (ε α : Type) where
  trace : List ε
  result : Option α

namespace Attempt

instance : Monad (Attempt ε) where
  pure a := ⟨[], some a⟩
  bind x f :=
    match x.result with
    | some a => ⟨x.trace ++ (f a).trace, (f a).result⟩
    | none => ⟨x.trace, none⟩

/-- A computation without events. -/
instance : MonadLift Option (Attempt ε) where
  monadLift x := ⟨[], x⟩

/-- An event. -/
def emit (event : ε) : Attempt ε Unit := ⟨[event], some ()⟩

def giveUp : Attempt ε α := ⟨[], none⟩

@[simp] theorem trace_pure (a : α) : (pure a : Attempt ε α).trace = [] := rfl

@[simp] theorem result_pure (a : α) : (pure a : Attempt ε α).result = some a := rfl

@[simp] theorem trace_lift (x : Option α) : (liftM x : Attempt ε α).trace = [] := rfl

@[simp] theorem result_lift (x : Option α) : (liftM x : Attempt ε α).result = x := rfl

@[simp] theorem trace_emit (event : ε) : (emit event).trace = [event] := rfl

@[simp] theorem result_emit (event : ε) : (emit event).result = some () := rfl

@[simp] theorem trace_giveUp : (giveUp : Attempt ε α).trace = [] := rfl

@[simp] theorem result_giveUp : (giveUp : Attempt ε α).result = none := rfl

section Bind

variable {x : Attempt ε α} {f : α → Attempt ε β}

theorem bind_of_some {a : α} (hx : x.result = some a) :
    x >>= f = ⟨x.trace ++ (f a).trace, (f a).result⟩ := by
  show (match x.result with
    | some a => (⟨x.trace ++ (f a).trace, (f a).result⟩ : Attempt ε β)
    | none => ⟨x.trace, none⟩) = _
  rw [hx]

theorem bind_of_none (hx : x.result = none) : x >>= f = ⟨x.trace, none⟩ := by
  show (match x.result with
    | some a => (⟨x.trace ++ (f a).trace, (f a).result⟩ : Attempt ε β)
    | none => ⟨x.trace, none⟩) = _
  rw [hx]

@[simp] theorem result_bind (x : Attempt ε α) (f : α → Attempt ε β) :
    (x >>= f).result = x.result.bind fun a => (f a).result := by
  cases hx : x.result with
  | none => rw [bind_of_none hx, Option.bind_none]
  | some a => rw [bind_of_some hx, Option.bind_some]

theorem mem_trace_bind {event : ε} :
    event ∈ (x >>= f).trace ↔
      event ∈ x.trace ∨ ∃ a, x.result = some a ∧ event ∈ (f a).trace := by
  cases hx : x.result with
  | none => simp [bind_of_none hx]
  | some a => simp [bind_of_some hx]

end Bind

/-! ## Events -/

/-- Every event satisfies `p`. -/
def All (p : ε → Prop) (x : Attempt ε α) : Prop := ∀ event ∈ x.trace, p event

variable {p : ε → Prop}

theorem all_of_trace_eq_nil {x : Attempt ε α} (hx : x.trace = []) : x.All p := by
  intro event hevent
  rw [hx] at hevent
  cases hevent

theorem all_emit {event : ε} : (emit event).All p ↔ p event := by
  simp [All]

/-- A sequence causes only good events if its first part does and, where that returns, the rest
does. -/
theorem all_bind {x : Attempt ε α} {f : α → Attempt ε β} :
    (x >>= f).All p ↔ x.All p ∧ ∀ a, x.result = some a → (f a).All p := by
  simp only [All, mem_trace_bind]
  constructor
  · intro hall
    exact ⟨fun event hevent => hall event (.inl hevent),
      fun a ha event hevent => hall event (.inr ⟨a, ha, hevent⟩)⟩
  · rintro ⟨hfirst, hrest⟩ event (hevent | ⟨a, ha, hevent⟩)
    · exact hfirst event hevent
    · exact hrest a ha event hevent

/-- The rule for a fold. -/
theorem all_foldlM {f : σ → α → Attempt ε σ} {list : List α}
    (hturn : ∀ a ∈ list, ∀ s, (f s a).All p) : ∀ s, (list.foldlM f s).All p := by
  induction list with
  | nil => exact fun s => all_of_trace_eq_nil rfl
  | cons a list ih =>
    intro s
    rw [List.foldlM_cons, all_bind]
    refine ⟨hturn a List.mem_cons_self s, fun next _ => ?_⟩
    exact ih (fun b hb => hturn b (List.mem_cons_of_mem _ hb)) next

end Attempt

end Hyperion.Lib
