import Hyperion.Lib.Checked

/-!
# Pictures laid over each other

A picture has a value at some of the points and none at the others.  Pictures are laid over each
other one after the other, so at each point what shows is the value of the last one that has a
value there (`exists_last_of_stack_eq_some`).
-/

namespace Hyperion.Lib

variable {ι P V : Type*}

/-- A value at some of the points. -/
abbrev Picture (P V : Type*) := P → Option V

namespace Picture

/-- `top` laid over `bottom`. -/
def atop (top bottom : Picture P V) : Picture P V := fun p => (top p).or (bottom p)

/-- One point. -/
def single [DecidableEq P] (p : P) (v : V) : Picture P V := fun q => if q = p then some v else none

/-- One value at every point of an area. -/
def area (A : P → Prop) [DecidablePred A] (v : V) : Picture P V :=
  fun p => if A p then some v else none

/-- The pictures of a list of items, each laid over the ones before it. -/
def stack (draw : ι → Picture P V) (items : List ι) : Picture P V :=
  items.foldl (fun below item => atop (draw item) below) fun _ => none

variable {draw : ι → Picture P V} {items : List ι} {p : P}

theorem stack_concat (items : List ι) (item : ι) :
    stack draw (items ++ [item]) = atop (draw item) (stack draw items) := by
  rw [stack, List.foldl_append]
  rfl

theorem stack_map {κ : Type*} (f : κ → ι) (items : List κ) :
    stack draw (items.map f) = stack (fun k => draw (f k)) items := by
  rw [stack, stack, List.foldl_map]

theorem stack_eq_none : stack draw items p = none ↔ ∀ item ∈ items, draw item p = none := by
  induction items using List.reverseRecOn with
  | nil => simp [stack]
  | append_singleton items item ih =>
    rw [stack_concat, atop, Option.or_eq_none_iff, ih, List.forall_mem_append,
      List.forall_mem_singleton, and_comm]

/-- What shows is the value of the last item that has one. -/
theorem exists_last_of_stack_eq_some {v : V} (hstack : stack draw items p = some v) :
    ∃ front item back, items = front ++ item :: back ∧ draw item p = some v ∧
      ∀ other ∈ back, draw other p = none := by
  induction items using List.reverseRecOn with
  | nil => cases hstack
  | append_singleton items last ih =>
    rw [stack_concat, atop] at hstack
    cases hlast : draw last p with
    | some w =>
      rw [hlast, Option.some_or] at hstack
      exact ⟨items, last, [], rfl, hlast.trans hstack, by simp⟩
    | none =>
      rw [hlast, Option.none_or] at hstack
      obtain ⟨front, item, back, rfl, hitem, hback⟩ := ih hstack
      refine ⟨front, item, back ++ [last], by simp, hitem, ?_⟩
      exact List.forall_mem_append.mpr ⟨hback, List.forall_mem_singleton.mpr hlast⟩

/-- Where only one item can have a value, that one shows. -/
theorem stack_eq_of_only {item : ι} (hmem : item ∈ items)
    (honly : ∀ other ∈ items, other ≠ item → draw other p = none) :
    stack draw items p = draw item p := by
  cases hstack : stack draw items p with
  | none => rw [stack_eq_none.mp hstack item hmem]
  | some v =>
    obtain ⟨front, shown, back, rfl, hshown, _⟩ := exists_last_of_stack_eq_some hstack
    by_cases heq : shown = item
    · rw [← heq, hshown]
    · rw [honly shown (by simp) heq] at hshown
      cases hshown

theorem area_eq_some {A : P → Prop} [DecidablePred A] {v w : V} :
    area A v p = some w ↔ A p ∧ v = w := by
  unfold area
  split
  case isTrue hin => simp [hin]
  case isFalse hout => simp [hout]

theorem area_congr {A B : P → Prop} [DecidablePred A] [DecidablePred B] {v : V} (h : A p ↔ B p) :
    area A v p = area B v p := by
  unfold area
  by_cases hA : A p
  · rw [if_pos hA, if_pos (h.mp hA)]
  · rw [if_neg hA, if_neg (hA ∘ h.mpr)]

/-- Areas of one value laid over each other are one area. -/
theorem stack_area {A : ι → P → Prop} [∀ item, DecidablePred (A item)] {B : P → Prop}
    [DecidablePred B] {v : V} (h : B p ↔ ∃ item ∈ items, A item p) :
    stack (fun item => area (A item) v) items p = area B v p := by
  cases hstack : stack (fun item => area (A item) v) items p with
  | none =>
    have hnone := stack_eq_none.mp hstack
    refine (if_neg fun hB => ?_).symm
    obtain ⟨item, hitem, hin⟩ := h.mp hB
    have hsome := area_eq_some.mpr ⟨hin, (rfl : v = v)⟩
    rw [hnone item hitem] at hsome
    cases hsome
  | some w =>
    obtain ⟨front, item, back, rfl, hitem, _⟩ := exists_last_of_stack_eq_some hstack
    obtain ⟨hin, hv⟩ := area_eq_some.mp hitem
    exact (area_eq_some.mpr ⟨h.mpr ⟨item, by simp, hin⟩, hv⟩).symm

/-! ## Loops -/

section Loops

variable {α σ ε : Type} {draw : α → Picture P V} {items : List α}

/-- The rule for a loop that draws, with an invariant that knows what has been drawn. -/
theorem ends_foldlM_stack {R : Picture P V → σ → Prop} {f : σ → α → Except ε σ}
    {excuse : ε → Prop} {s : σ} (hs : R (fun _ => none) s)
    (hturn : ∀ item ∈ items, ∀ below mid, R below mid →
      Ends (f mid item) (R (atop (draw item) below)) excuse) :
    Ends (items.foldlM f s) (R (stack draw items)) excuse := by
  induction items using List.reverseRecOn with
  | nil => exact ends_pure hs
  | append_singleton items last ih =>
    rw [List.foldlM_append]
    apply (ih fun item hitem => hturn item (List.mem_append_left _ hitem)).bind
    intro mid hmid
    rw [List.foldlM_cons, stack_concat]
    apply (hturn last (by simp) _ mid hmid).bind
    exact fun out hout => ends_pure hout

theorem returns_foldlM_stack {R : Picture P V → σ → Prop} {f : σ → α → Checked σ} {s : σ}
    (hs : R (fun _ => none) s)
    (hturn : ∀ item ∈ items, ∀ below mid, R below mid →
      Returns (f mid item) (R (atop (draw item) below))) :
    Returns (items.foldlM f s) (R (stack draw items)) := by
  refine returns_iff_ends.mpr (ends_foldlM_stack hs ?_)
  exact fun item hitem below mid hmid => returns_iff_ends.mp (hturn item hitem below mid hmid)

end Loops

end Picture

end Hyperion.Lib
