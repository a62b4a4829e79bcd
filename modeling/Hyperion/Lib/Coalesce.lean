import Mathlib

/-!
# Coalescing into a bounded list

Elements are entered one after another into a list of at most `cap` elements.  One that
is adjacent to the last element of the list is merged into it, any other one is appended
if there is room.  What is lost depends on the maximal runs of adjacent elements of the
input, `List.splitBy adjacent`: each of the first `cap` runs becomes one element
(`pushAll_runs`), and a later one is lost unless it goes on with the last of these
(`takes_iff_of_many`).
-/

namespace Hyperion.Lib.Coalesce

variable {α : Type*} (adjacent : α → α → Bool) (merge : α → α → α) (cap : ℕ)

/-- Enters one element. -/
def push (kept : List α) (a : α) : List α :=
  match kept.getLast? with
  | some last =>
    if adjacent last a then kept.dropLast ++ [merge last a]
    else if kept.length < cap then kept ++ [a] else kept
  | none => if kept.length < cap then kept ++ [a] else kept

/-- Enters the elements of a list. -/
def pushAll (kept : List α) (as : List α) : List α :=
  as.foldl (push adjacent merge cap) kept

/-- There is room for an element, or it goes on with the last one. -/
def Takes (kept : List α) (a : α) : Prop :=
  kept.length < cap ∨ ∃ last ∈ kept.getLast?, adjacent last a = true

/-- The last element of those that go on with `last`, one after another. -/
def follow (last : α) (as : List α) : α :=
  as.foldl (fun last a => if adjacent last a then a else last) last

/-- A run merged to one element. -/
def fuse? : List α → Option α
  | [] => none
  | a :: run => some (run.foldl merge a)

variable {adjacent merge cap} {kept : List α} {a last : α}

theorem length_filterMap_fuse {runs : List (List α)} (hnil : [] ∉ runs) :
    (runs.filterMap (fuse? merge)).length = runs.length := by
  induction runs with
  | nil => rfl
  | cons run runs ih =>
    rw [List.mem_cons, not_or] at hnil
    cases run with
    | nil => exact absurd rfl hnil.1
    | cons a run => exact congrArg (· + 1) (ih hnil.2)

theorem pushAll_cons (kept as : List α) (a : α) :
    pushAll adjacent merge cap kept (a :: as) =
      pushAll adjacent merge cap (push adjacent merge cap kept a) as := rfl

theorem pushAll_append (kept as bs : List α) :
    pushAll adjacent merge cap kept (as ++ bs) =
      pushAll adjacent merge cap (pushAll adjacent merge cap kept as) bs :=
  List.foldl_append

theorem pushAll_flatten (before : List (List α)) :
    pushAll adjacent merge cap [] before.flatten = pushAll adjacent merge cap
      (pushAll adjacent merge cap [] (before.take cap).flatten) (before.drop cap).flatten := by
  rw [← pushAll_append, ← List.flatten_append, List.take_append_drop]

theorem push_of_adjacent (hadjacent : adjacent last a = true) :
    push adjacent merge cap (kept ++ [last]) a = kept ++ [merge last a] := by
  simp [push, hadjacent]

theorem push_of_room (hapart : ∀ last ∈ kept.getLast?, adjacent last a = false)
    (hroom : kept.length < cap) : push adjacent merge cap kept a = kept ++ [a] := by
  unfold push
  split
  case h_1 last hlast => simp [hapart last hlast, hroom]
  case h_2 => rw [if_pos hroom]

/-- All that can happen to an element. -/
theorem push_cases (adjacent : α → α → Bool) (merge : α → α → α) (cap : ℕ) (kept : List α) (a : α) :
    (∃ front last, kept = front ++ [last] ∧ adjacent last a = true ∧
        push adjacent merge cap kept a = front ++ [merge last a]) ∨
      kept.length < cap ∧ push adjacent merge cap kept a = kept ++ [a] ∨
      (cap ≤ kept.length ∧ (∀ last ∈ kept.getLast?, adjacent last a = false) ∧
        push adjacent merge cap kept a = kept) := by
  by_cases hadjacent : ∃ last ∈ kept.getLast?, adjacent last a = true
  · obtain ⟨last, hlast, hadjacent⟩ := hadjacent
    obtain ⟨front, rfl⟩ := List.getLast?_eq_some_iff.mp hlast
    exact .inl ⟨front, last, rfl, hadjacent, push_of_adjacent hadjacent⟩
  · have hapart : ∀ last ∈ kept.getLast?, adjacent last a = false :=
      fun last hlast => Bool.eq_false_iff.mpr fun htrue => hadjacent ⟨last, hlast, htrue⟩
    rcases Nat.lt_or_ge kept.length cap with hroom | hfull
    · exact .inr (.inl ⟨hroom, push_of_room hapart hroom⟩)
    · refine .inr (.inr ⟨hfull, hapart, ?_⟩)
      unfold push
      split
      case h_1 last hlast => simp [hapart last hlast, hfull]
      case h_2 => exact if_neg (Nat.not_lt.mpr hfull)

theorem push_of_not_takes (hnot : ¬Takes adjacent cap kept a) :
    push adjacent merge cap kept a = kept := by
  rcases push_cases adjacent merge cap kept a with
    ⟨front, last, rfl, hadjacent, _⟩ | ⟨hroom, _⟩ | ⟨_, _, hpush⟩
  · exact absurd (.inr ⟨last, by simp, hadjacent⟩) hnot
  · exact absurd (.inl hroom) hnot
  · exact hpush

theorem length_le_pushAll (as : List α) :
    kept.length ≤ (pushAll adjacent merge cap kept as).length := by
  induction as generalizing kept with
  | nil => exact le_refl _
  | cons a as ih =>
    have hpush : kept.length ≤ (push adjacent merge cap kept a).length := by
      rcases push_cases adjacent merge cap kept a with
        ⟨front, last, rfl, _, hpush⟩ | ⟨_, hpush⟩ | ⟨_, _, hpush⟩ <;> simp [hpush]
    exact hpush.trans ih

/-- An element leaves no trace only if there is no room for it. -/
theorem full_of_push_eq_self (hgrows : ∀ last ∈ kept.getLast?, adjacent last a = true →
      merge last a ≠ last) (hself : push adjacent merge cap kept a = kept) :
    cap ≤ kept.length ∧ ∀ last ∈ kept.getLast?, adjacent last a = false := by
  rcases push_cases adjacent merge cap kept a with
    ⟨front, last, rfl, hadjacent, hpush⟩ | ⟨_, hpush⟩ | ⟨hfull, hapart, _⟩
  · rw [hpush] at hself
    have hlast := List.singleton_inj.mp (List.append_cancel_left hself)
    exact absurd hlast (hgrows last (by simp) hadjacent)
  · rw [hpush] at hself
    simp at hself
  · exact ⟨hfull, hapart⟩

/-! ## One run -/

section Run

-- a merged element ends where its second part ended
variable (hmerge : ∀ a b c, adjacent a b = true → adjacent (merge a b) c = adjacent b c)

include hmerge

/-- The rest of a run is merged into an element that ends where the run goes on. -/
theorem pushAll_rest (run : List α) (prev : α) (hprev : ∀ c, adjacent last c = adjacent prev c)
    (hchain : (prev :: run).IsChain fun a b => adjacent a b = true) :
    pushAll adjacent merge cap (kept ++ [last]) run = kept ++ [run.foldl merge last] ∧
      ∀ c, adjacent (run.foldl merge last) c =
        adjacent ((prev :: run).getLast (List.cons_ne_nil _ _)) c := by
  induction run generalizing last prev with
  | nil => exact ⟨rfl, hprev⟩
  | cons a run ih =>
    obtain ⟨hfirst, hrest⟩ := List.isChain_cons_cons.mp hchain
    have hadjacent : adjacent last a = true := (hprev a).trans hfirst
    rw [pushAll_cons, push_of_adjacent hadjacent, List.foldl_cons,
      List.getLast_cons (List.cons_ne_nil _ _)]
    exact ih a (fun c => hmerge last a c hadjacent) hrest

/-- A run that begins apart from the last element becomes one new element. -/
theorem pushAll_run (run : List α) (hapart : ∀ last ∈ kept.getLast?, adjacent last a = false)
    (hroom : kept.length < cap) (hchain : (a :: run).IsChain fun a b => adjacent a b = true) :
    pushAll adjacent merge cap kept (a :: run) = kept ++ [run.foldl merge a] ∧
      ∀ c, adjacent (run.foldl merge a) c =
        adjacent ((a :: run).getLast (List.cons_ne_nil _ _)) c := by
  rw [pushAll_cons, push_of_room hapart hroom]
  exact pushAll_rest hmerge run a (fun _ => rfl) hchain

/-- A run whose first element is taken goes on with the last element or becomes a new one. -/
theorem pushAll_of_takes (run : List α) (htakes : Takes adjacent cap kept a)
    (hchain : (a :: run).IsChain fun a b => adjacent a b = true) :
    (∃ front last, kept = front ++ [last] ∧ adjacent last a = true ∧
        pushAll adjacent merge cap kept (a :: run) = front ++ [(a :: run).foldl merge last]) ∨
      pushAll adjacent merge cap kept (a :: run) = kept ++ [run.foldl merge a] := by
  by_cases hadjacent : ∃ last ∈ kept.getLast?, adjacent last a = true
  · obtain ⟨last, hlast, hadjacent⟩ := hadjacent
    obtain ⟨front, rfl⟩ := List.getLast?_eq_some_iff.mp hlast
    have hwhole : (last :: a :: run).IsChain fun a b => adjacent a b = true :=
      List.isChain_cons_cons.mpr ⟨hadjacent, hchain⟩
    exact .inl ⟨front, last, rfl, hadjacent,
      (pushAll_rest hmerge (a :: run) last (fun _ => rfl) hwhole).1⟩
  · have hapart : ∀ last ∈ kept.getLast?, adjacent last a = false :=
      fun last hlast => Bool.eq_false_iff.mpr fun htrue => hadjacent ⟨last, hlast, htrue⟩
    exact .inr (pushAll_run hmerge run hapart (htakes.resolve_right hadjacent) hchain).1

/-! ## Several runs -/

/-- As long as there is room, each run becomes one element. -/
theorem pushAll_runs (runs : List (List α)) (kept : List α)
    (hapart : ∀ last ∈ kept.getLast?, ∀ run ∈ runs.head?, ∀ a ∈ run.head?,
      adjacent last a = false)
    (hnil : [] ∉ runs) (hchains : ∀ run ∈ runs, run.IsChain fun a b => adjacent a b = true)
    (hruns : runs.IsChain fun a b => ∃ ha hb, adjacent (a.getLast ha) (b.head hb) = false)
    (hroom : kept.length + runs.length ≤ cap) :
    pushAll adjacent merge cap kept runs.flatten = kept ++ runs.filterMap (fuse? merge) := by
  induction runs generalizing kept with
  | nil => simp [pushAll]
  | cons run runs ih =>
    rw [List.length_cons] at hroom
    cases run with
    | nil => exact absurd List.mem_cons_self hnil
    | cons a run =>
      have hfirst : ∀ last ∈ kept.getLast?, adjacent last a = false :=
        fun last hlast => hapart last hlast (a :: run) rfl a rfl
      have hfree : kept.length < cap := by omega
      obtain ⟨hpush, hends⟩ :=
        pushAll_run hmerge run hfirst hfree (hchains _ List.mem_cons_self)
      have htail : ∀ last ∈ (kept ++ [run.foldl merge a]).getLast?, ∀ next ∈ runs.head?,
          ∀ b ∈ next.head?, adjacent last b = false := by
        intro last hlast next hnext b hb
        rw [List.getLast?_concat, Option.mem_some_iff] at hlast
        obtain ⟨_, hne, hfalse⟩ := (List.isChain_cons.mp hruns).1 next hnext
        rw [← hlast, hends, ← (List.head_of_mem_head? hb : next.head hne = b)]
        exact hfalse
      rw [List.flatten_cons, pushAll_append, hpush]
      rw [ih _ htail (fun h => hnil (List.mem_cons_of_mem _ h))
        (fun next hnext => hchains next (List.mem_cons_of_mem _ hnext))
        (List.isChain_cons.mp hruns).2 (by rw [List.length_append, List.length_singleton]; omega)]
      rw [List.append_assoc]
      rfl

theorem pushAll_take_runs (cap : ℕ) {as : List α} {before after : List (List α)}
    (hsplit : as.splitBy adjacent = before ++ after) :
    [] ∉ before.take cap ∧ pushAll adjacent merge cap [] (before.take cap).flatten =
      (before.take cap).filterMap (fuse? merge) := by
  have hsub : before.take cap <+: as.splitBy adjacent :=
    hsplit ▸ (List.take_prefix _ _).trans (List.prefix_append _ _)
  have hnil : [] ∉ before.take cap := fun h => List.nil_notMem_splitBy _ _ (hsub.subset h)
  have hapart := List.isChain_getLast_head_splitBy adjacent as
  rw [hsplit] at hapart
  refine ⟨hnil, pushAll_runs hmerge (before.take cap) [] nofun hnil
    (fun run hrun => List.isChain_of_mem_splitBy (hsub.subset hrun))
    (hapart.left_of_append.take cap) ?_⟩
  rw [List.length_take]
  exact (Nat.zero_add _).trans_le (Nat.min_le_left _ _)

/-- There is room for one of the first runs. -/
theorem takes_of_few {as : List α} {before after : List (List α)}
    (hsplit : as.splitBy adjacent = before ++ after) (hfew : before.length < cap) :
    Takes adjacent cap (pushAll adjacent merge cap [] before.flatten) a := by
  obtain ⟨hnil, hfirst⟩ := pushAll_take_runs hmerge cap hsplit
  have hlength := congrArg List.length hfirst
  rw [length_filterMap_fuse hnil, List.take_of_length_le hfew.le] at hlength
  exact .inl (hlength.trans_lt hfew)

/-- A full list ends where the elements end that go on with its last one. -/
theorem pushAll_full (as : List α) (tail : α) (hfull : cap ≤ kept.length + 1)
    (hends : ∀ c, adjacent last c = adjacent tail c) :
    ∃ grown, pushAll adjacent merge cap (kept ++ [last]) as = kept ++ [grown] ∧
      ∀ c, adjacent grown c = adjacent (follow adjacent tail as) c := by
  induction as generalizing last tail with
  | nil => exact ⟨last, rfl, hends⟩
  | cons a as ih =>
    rw [pushAll_cons, follow, List.foldl_cons]
    cases hadjacent : adjacent tail a with
    | true =>
      have hlast : adjacent last a = true := (hends a).trans hadjacent
      rw [push_of_adjacent hlast, if_pos rfl]
      exact ih a fun c => hmerge last a c hlast
    | false =>
      have hnot : ¬Takes adjacent cap (kept ++ [last]) a := by
        simp [Takes, hends, hadjacent, Nat.not_lt.mpr hfull]
      rw [push_of_not_takes hnot, if_neg Bool.false_ne_true]
      exact ih tail hends

/-- A later one is taken if it goes on with the last run there was room for, or with
elements that do. -/
theorem takes_iff_of_many {as : List α} {before after : List (List α)}
    (hsplit : as.splitBy adjacent = before ++ after) (hcap : 0 < cap)
    (hmany : cap ≤ before.length) :
    Takes adjacent cap (pushAll adjacent merge cap [] before.flatten) a ↔
      ∃ tail ∈ (before.take cap).flatten.getLast?,
        adjacent (follow adjacent tail (before.drop cap).flatten) a = true := by
  obtain ⟨hnil, hfirst⟩ := pushAll_take_runs hmerge cap hsplit
  have hne : before.take cap ≠ [] := by
    intro h
    have := congrArg List.length h
    rw [List.length_take, List.length_nil] at this
    omega
  obtain ⟨init, run, hinit⟩ := (List.eq_nil_or_concat' (before.take cap)).resolve_left hne
  have hlength := congrArg List.length hinit
  rw [List.length_take, List.length_append, List.length_singleton] at hlength
  have hmem : run ∈ as.splitBy adjacent :=
    hsplit ▸ List.mem_append_left _ (List.mem_of_mem_take (hinit ▸ List.mem_concat_self))
  rw [hinit] at hnil
  cases run with
  | nil => exact absurd List.mem_concat_self hnil
  | cons first run =>
    have hends : ∀ c, adjacent (run.foldl merge first) c =
        adjacent ((first :: run).getLast (List.cons_ne_nil _ _)) c :=
      (pushAll_rest hmerge run first (fun _ => rfl) (List.isChain_of_mem_splitBy hmem) :
        pushAll adjacent merge cap ([] ++ [first]) run = _ ∧ _).2
    have hinits : (init.filterMap (fuse? merge)).length = init.length :=
      length_filterMap_fuse fun h => hnil (List.mem_append_left _ h)
    have hfull : cap ≤ (init.filterMap (fuse? merge)).length + 1 := by omega
    obtain ⟨grown, hgrown, hgrowns⟩ := pushAll_full hmerge (before.drop cap).flatten _ hfull hends
    have hpushed : pushAll adjacent merge cap [] before.flatten =
        init.filterMap (fuse? merge) ++ [grown] := by
      rw [pushAll_flatten, hfirst, hinit, List.filterMap_append]
      exact hgrown
    have htail : (before.take cap).flatten.getLast? =
        some ((first :: run).getLast (List.cons_ne_nil _ _)) := by
      simp [hinit, List.getLast?_eq_getLast_of_ne_nil]
    rw [hpushed, htail]
    simp [Takes, hgrowns, Nat.not_lt.mpr hfull]

end Run

/-! ## All that is entered -/

section Grown

variable {Grows : α → α → Prop} [IsPreorder α Grows] (hgrows : ∀ a b, Grows a (merge a b))

include hgrows

/-- An element stays in the list; it may grow. -/
theorem exists_grown_pushAll (as : List α) (hmem : a ∈ kept) :
    ∃ b ∈ pushAll adjacent merge cap kept as, Grows a b := by
  induction as generalizing kept a with
  | nil => exact ⟨a, hmem, Std.Refl.refl a⟩
  | cons next as ih =>
    have hpush : ∃ b ∈ push adjacent merge cap kept next, Grows a b := by
      rcases push_cases adjacent merge cap kept next with
        ⟨front, last, rfl, _, hpush⟩ | ⟨_, hpush⟩ | ⟨_, _, hpush⟩
      · rw [hpush]
        rcases List.mem_append.mp hmem with hfront | hlast
        · exact ⟨a, List.mem_append_left _ hfront, Std.Refl.refl a⟩
        · rw [List.mem_singleton.mp hlast]
          exact ⟨_, List.mem_append_right _ List.mem_cons_self, hgrows last next⟩
      · exact ⟨a, hpush ▸ List.mem_append_left _ hmem, Std.Refl.refl a⟩
      · exact ⟨a, hpush.symm ▸ hmem, Std.Refl.refl a⟩
    obtain ⟨b, hb, hfirst⟩ := hpush
    obtain ⟨c, hc, hsecond⟩ := ih hb
    exact ⟨c, hc, IsTrans.trans _ _ _ hfirst hsecond⟩

end Grown

/-! ## What is covered -/

section Cover

variable {P : Type*} {cover : α → Set P} {Fits : α → Prop}

/-- The points that the elements of a list cover. -/
def coverAll (cover : α → Set P) (kept : List α) : Set P := {p | ∃ a ∈ kept, p ∈ cover a}

theorem coverAll_concat (kept : List α) (a : α) :
    coverAll cover (kept ++ [a]) = coverAll cover kept ∪ cover a := by
  ext p
  simp [coverAll, or_and_right, exists_or]

-- adjacent elements are merged without a gap
variable (hmerge : ∀ a b, Fits a → Fits b → adjacent a b = true →
  Fits (merge a b) ∧ cover (merge a b) = cover a ∪ cover b)

include hmerge

theorem forall_fits_push (hkept : ∀ b ∈ kept, Fits b) (ha : Fits a) :
    ∀ b ∈ push adjacent merge cap kept a, Fits b := by
  rcases push_cases adjacent merge cap kept a with
    ⟨front, last, rfl, hadjacent, hpush⟩ | ⟨_, hpush⟩ | ⟨_, _, hpush⟩
  · rw [List.forall_mem_append, List.forall_mem_singleton] at hkept
    rw [hpush, List.forall_mem_append, List.forall_mem_singleton]
    exact ⟨hkept.1, (hmerge last a hkept.2 ha hadjacent).1⟩
  · rw [hpush, List.forall_mem_append, List.forall_mem_singleton]
    exact ⟨hkept, ha⟩
  · rwa [hpush]

/-- An element is covered, unless the list is full and does not end with an adjacent one. -/
theorem coverAll_push (cap : ℕ) (hkept : ∀ b ∈ kept, Fits b) (ha : Fits a) :
    coverAll cover (push adjacent merge cap kept a) = coverAll cover kept ∪ cover a ∨
      (cap ≤ kept.length ∧ (∀ last ∈ kept.getLast?, adjacent last a = false) ∧
        push adjacent merge cap kept a = kept) := by
  rcases push_cases adjacent merge cap kept a with
    ⟨front, last, rfl, hadjacent, hpush⟩ | ⟨_, hpush⟩ | hfull
  · left
    rw [List.forall_mem_append, List.forall_mem_singleton] at hkept
    rw [hpush, coverAll_concat, coverAll_concat, (hmerge last a hkept.2 ha hadjacent).2,
      Set.union_assoc]
  · left
    rw [hpush, coverAll_concat]
  · exact .inr hfull

/-- Nothing else is covered than what is entered. -/
theorem coverAll_pushAll_subset (as : List α) (hkept : ∀ b ∈ kept, Fits b)
    (has : ∀ a ∈ as, Fits a) : coverAll cover (pushAll adjacent merge cap kept as) ⊆
      coverAll cover kept ∪ coverAll cover as := by
  induction as generalizing kept with
  | nil => exact Set.subset_union_left
  | cons a as ih =>
    obtain ⟨ha, has⟩ := List.forall_mem_cons.mp has
    have hpush : coverAll cover (push adjacent merge cap kept a) ⊆
        coverAll cover kept ∪ cover a := by
      rcases coverAll_push hmerge cap hkept ha with heq | ⟨_, _, heq⟩
      · exact heq.subset
      · rw [heq]
        exact Set.subset_union_left
    refine (ih (forall_fits_push hmerge hkept ha) has).trans ?_
    have hcons : coverAll cover (a :: as) = cover a ∪ coverAll cover as := by
      ext p
      simp [coverAll]
    rw [hcons, ← Set.union_assoc]
    exact Set.union_subset_union_left _ hpush

theorem pairwise_disjoint_push (hkept : ∀ b ∈ kept, Fits b) (ha : Fits a)
    (hpairwise : kept.Pairwise fun b c => Disjoint (cover b) (cover c))
    (hnew : Disjoint (coverAll cover kept) (cover a)) :
    (push adjacent merge cap kept a).Pairwise fun b c => Disjoint (cover b) (cover c) := by
  have hapart : ∀ b ∈ kept, Disjoint (cover b) (cover a) :=
    fun b hb => hnew.mono_left (show cover b ⊆ coverAll cover kept from fun p hp => ⟨b, hb, hp⟩)
  rcases push_cases adjacent merge cap kept a with
    ⟨front, last, rfl, hadjacent, hpush⟩ | ⟨_, hpush⟩ | ⟨_, _, hpush⟩
  · rw [List.forall_mem_append, List.forall_mem_singleton] at hkept
    rw [List.pairwise_append] at hpairwise
    obtain ⟨hfront, _, hlast⟩ := hpairwise
    rw [hpush, List.pairwise_append]
    refine ⟨hfront, List.pairwise_singleton _ _, ?_⟩
    intro b hb c hc
    rw [List.mem_singleton.mp hc, (hmerge last a hkept.2 ha hadjacent).2]
    exact (hlast b hb last List.mem_cons_self).union_right
      (hapart b (List.mem_append_left _ hb))
  · rw [hpush, List.pairwise_append]
    refine ⟨hpairwise, List.pairwise_singleton _ _, ?_⟩
    intro b hb c hc
    rw [List.mem_singleton.mp hc]
    exact hapart b hb
  · rwa [hpush]

end Cover

end Hyperion.Lib.Coalesce
