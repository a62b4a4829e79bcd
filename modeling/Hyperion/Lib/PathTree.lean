import Mathlib

/-!
# Trees of linked nodes and the maps they stand for

The nodes of a store link to each other under keys: `child node key` is the node
that `node` has under `key`.  When no node is linked twice and the root is not
linked at all, the nodes below the root form a tree, and a node is found along at
most one path (`TreeLike.path_unique`).  Replacing one link whose old and new
targets have no children of their own changes what is found along the path of
that link and nothing else (`TreeLike.descend_relink`); both adding a new leaf and
removing an old one are of this form.

What such a store stands for is a `PathMap`: a finite set of paths closed under
taking the parent, where each path holds a value or is a branch.
-/

namespace Hyperion.Lib

/-! ## Following links -/

section Descend

variable {Ref K : Type*} {child child' : Ref → K → Option Ref} {root node : Ref}

/-- The node that `path` leads to from `node`. -/
def descend (child : Ref → K → Option Ref) (node : Ref) (path : List K) : Option Ref :=
  path.foldlM child node

@[simp] theorem descend_nil : descend child node [] = some node := rfl

@[simp] theorem descend_cons (key : K) (path : List K) :
    descend child node (key :: path) = (child node key).bind fun next => descend child next path :=
  rfl

theorem descend_append (first second : List K) :
    descend child node (first ++ second) =
      (descend child node first).bind fun next => descend child next second := by
  simp only [descend, List.foldlM_append]
  rfl

theorem descend_concat (path : List K) (key : K) :
    descend child node (path ++ [key]) = (descend child node path).bind fun next =>
      child next key := by
  simp [descend_append]

/-- No node is linked twice, and the root is not linked at all. -/
structure TreeLike (child : Ref → K → Option Ref) (root : Ref) : Prop where
  link_unique : ∀ {a b c : Ref} {k l : K}, child a k = some c → child b l = some c → a = b ∧ k = l
  root_unlinked : ∀ {a : Ref} {k : K}, child a k ≠ some root

/-- A node of a tree is found along one path only. -/
theorem TreeLike.path_unique (tree : TreeLike child root) {first second : List K} {found : Ref}
    (hfirst : descend child root first = some found)
    (hsecond : descend child root second = some found) : first = second := by
  induction first using List.reverseRecOn generalizing second found with
  | nil =>
    obtain rfl : root = found := by simpa using hfirst
    rcases List.eq_nil_or_concat second with rfl | ⟨path, key, rfl⟩
    · rfl
    · rw [List.concat_eq_append, descend_concat] at hsecond
      obtain ⟨parent, _, hlink⟩ := Option.bind_eq_some_iff.mp hsecond
      exact absurd hlink tree.root_unlinked
  | append_singleton path key ih =>
    rw [descend_concat] at hfirst
    obtain ⟨parent, hparent, hlink⟩ := Option.bind_eq_some_iff.mp hfirst
    rcases List.eq_nil_or_concat second with rfl | ⟨path', key', rfl⟩
    · obtain rfl : root = found := by simpa using hsecond
      exact absurd hlink tree.root_unlinked
    · rw [List.concat_eq_append, descend_concat] at hsecond
      obtain ⟨parent', hparent', hlink'⟩ := Option.bind_eq_some_iff.mp hsecond
      obtain ⟨rfl, rfl⟩ := tree.link_unique hlink hlink'
      rw [List.concat_eq_append, ih hparent hparent']

variable [DecidableEq Ref] [DecidableEq K]

/-- `child'` is `child` with the link of `node` under `key` replaced by `target`. -/
def Relinked (child child' : Ref → K → Option Ref) (node : Ref) (key : K) (target : Option Ref) :
    Prop :=
  ∀ n k, child' n k = if n = node ∧ k = key then target else child n k

/-- A new link must lead to a node that was not linked before. -/
theorem TreeLike.relink (tree : TreeLike child root) {key : K} {target : Option Ref}
    (hlinks : Relinked child child' node key target)
    (hfresh : ∀ c ∈ target, c ≠ root ∧ ∀ n k, child n k ≠ some c) : TreeLike child' root where
  link_unique := by
    intro a b c k l ha hb
    rw [hlinks] at ha hb
    split at ha
    · rename_i hleft
      split at hb
      · rename_i hright
        exact ⟨hleft.1.trans hright.1.symm, hleft.2.trans hright.2.symm⟩
      · exact absurd hb ((hfresh c ha).2 b l)
    · split at hb
      · exact absurd ha ((hfresh c hb).2 a k)
      · exact tree.link_unique ha hb
  root_unlinked := by
    intro a k hlink
    rw [hlinks] at hlink
    split at hlink
    · exact (hfresh root hlink).1 rfl
    · exact tree.root_unlinked hlink

/-- Replacing a link changes what is found along its own path only, if neither
its old nor its new target has children. -/
theorem TreeLike.descend_relink (tree : TreeLike child root) {path : List K} {key : K}
    {target : Option Ref} (hlinks : Relinked child child' node key target)
    (hpath : descend child root path = some node)
    (hold : ∀ c ∈ child node key, ∀ k, child c k = none)
    (hnew : ∀ c ∈ target, ∀ k, child' c k = none) (other : List K) :
    descend child' root other =
      if other = path ++ [key] then target else descend child root other := by
  -- on the path from its end: the last link is the replaced one, or below it, or elsewhere
  induction other using List.reverseRecOn with
  | nil => simp
  | append_singleton init last ih =>
    rw [descend_concat, ih, descend_concat]
    by_cases hbelow : init = path ++ [key]
    · have hne : init ++ [last] ≠ path ++ [key] := by
        intro heq
        have := congrArg List.length heq
        simp [hbelow] at this
      rw [if_pos hbelow, if_neg hne, hbelow, descend_concat, hpath]
      have hgone : target.bind (fun next => child' next last) = none :=
        Option.bind_eq_none_iff.mpr fun c hc => hnew c hc last
      have hnone : (child node key).bind (fun next => child next last) = none :=
        Option.bind_eq_none_iff.mpr fun c hc => hold c hc last
      rw [hgone]
      exact hnone.symm
    · rw [if_neg hbelow]
      cases hinit : descend child root init with
      | none =>
        have hne : init ++ [last] ≠ path ++ [key] := by
          intro heq
          rw [(List.append_inj' heq rfl).1, hpath] at hinit
          cases hinit
        rw [if_neg hne]
        rfl
      | some parent =>
        have hsame : parent = node ∧ last = key ↔ init ++ [last] = path ++ [key] := by
          constructor
          · rintro ⟨rfl, rfl⟩
            rw [tree.path_unique hinit hpath]
          · intro heq
            obtain ⟨rfl, hlast⟩ := List.append_inj' heq rfl
            exact ⟨Option.some.inj (hinit.symm.trans hpath), by simpa using hlast⟩
        rw [Option.bind_some, Option.bind_some, hlinks]
        simp only [hsame]

end Descend

/-! ## Maps over paths -/

/-- What a path holds. -/
inductive Entry (V : Type*) where
  | leaf (value : V)
  | branch
  deriving DecidableEq

/-- A finite map over paths in which only branches have something below them. -/
structure PathMap (K V : Type*) where
  entry : List K → Option (Entry V)
  root : entry [] = some .branch
  parent_closed : ∀ path key, entry (path ++ [key]) ≠ none → entry path = some .branch
  finite : {path | entry path ≠ none}.Finite

namespace PathMap

variable {K V : Type*} [DecidableEq K]

/-- The map with nothing below its root. -/
def empty : PathMap K V where
  entry path := if path = [] then some .branch else none
  root := if_pos rfl
  parent_closed := by
    intro path key hmapped
    simp at hmapped
  finite := by
    refine (Set.finite_singleton []).subset ?_
    intro path hmapped
    by_contra hne
    exact hmapped (if_neg hne)

variable (map : PathMap K V)

/-- Nothing is below `path`. -/
def Childless (path : List K) : Prop := ∀ key, map.entry (path ++ [key]) = none

/-- Some proper initial part of `path` holds a value. -/
def Blocked (path : List K) : Prop :=
  ∃ init, init <+: path ∧ init ≠ path ∧ ∃ value, map.entry init = some (.leaf value)

/-- Add `found` at `path ++ [key]`. -/
def insert (path : List K) (key : K) (found : Entry V) (hparent : map.entry path = some .branch)
    (habsent : map.entry (path ++ [key]) = none) : PathMap K V where
  entry := Function.update map.entry (path ++ [key]) (some found)
  root := by rw [Function.update_of_ne (by simp), map.root]
  parent_closed := by
    intro other last hmapped
    have hbranch : map.entry other = some .branch := by
      by_cases heq : other ++ [last] = path ++ [key]
      · rwa [(List.append_inj' heq rfl).1]
      · rw [Function.update_of_ne heq] at hmapped
        exact map.parent_closed other last hmapped
    have hne : other ≠ path ++ [key] := by
      rintro rfl
      rw [habsent] at hbranch
      cases hbranch
    rwa [Function.update_of_ne hne]
  finite := by
    refine (map.finite.insert (path ++ [key])).subset ?_
    intro other hmapped
    by_cases heq : other = path ++ [key]
    · exact .inl heq
    · rw [Set.mem_ofPred_eq, Function.update_of_ne heq] at hmapped
      exact .inr hmapped

/-- Drop `path`, which has nothing below it. -/
def erase (path : List K) (hne : path ≠ []) (hchildless : map.Childless path) : PathMap K V where
  entry := Function.update map.entry path none
  root := by rw [Function.update_of_ne hne.symm, map.root]
  parent_closed := by
    intro other last hmapped
    have hlast : other ++ [last] ≠ path := by
      intro heq
      rw [heq, Function.update_self] at hmapped
      exact hmapped rfl
    rw [Function.update_of_ne hlast] at hmapped
    have hother : other ≠ path := by
      rintro rfl
      exact hmapped (hchildless last)
    rw [Function.update_of_ne hother]
    exact map.parent_closed other last hmapped
  finite := by
    refine map.finite.subset ?_
    intro other hmapped
    by_cases heq : other = path
    · rw [Set.mem_ofPred_eq, heq, Function.update_self] at hmapped
      exact absurd rfl hmapped
    · rwa [Set.mem_ofPred_eq, Function.update_of_ne heq] at hmapped

/-- Give `path`, which holds a value, another one. -/
def assign (path : List K) (value : V) (hleaf : ∃ old, map.entry path = some (.leaf old)) :
    PathMap K V where
  entry := Function.update map.entry path (some (.leaf value))
  root := by
    have hne : [] ≠ path := by
      rintro rfl
      obtain ⟨old, hold⟩ := hleaf
      rw [map.root] at hold
      cases hold
    rw [Function.update_of_ne hne, map.root]
  parent_closed := by
    intro other last hmapped
    have hbranch : map.entry other = some .branch := by
      refine map.parent_closed other last ?_
      by_cases heq : other ++ [last] = path
      · obtain ⟨old, hold⟩ := hleaf
        rw [heq, hold]
        exact Option.some_ne_none _
      · rwa [Function.update_of_ne heq] at hmapped
    have hne : other ≠ path := by
      rintro rfl
      obtain ⟨old, hold⟩ := hleaf
      rw [hbranch] at hold
      cases hold
    rwa [Function.update_of_ne hne]
  finite := by
    refine map.finite.subset ?_
    intro other hmapped
    by_cases heq : other = path
    · obtain ⟨old, hold⟩ := hleaf
      rw [Set.mem_ofPred_eq, heq, hold]
      exact Option.some_ne_none _
    · rwa [Set.mem_ofPred_eq, Function.update_of_ne heq] at hmapped

omit [DecidableEq K] in
/-- Every proper initial part of a mapped path is a branch. -/
theorem branch_of_append {init : List K} {key : K} {rest : List K}
    (hmapped : map.entry (init ++ key :: rest) ≠ none) : map.entry init = some .branch := by
  induction rest using List.reverseRecOn with
  | nil => exact map.parent_closed init key hmapped
  | append_singleton rest last ih =>
    apply ih
    have hbranch := map.parent_closed (init ++ key :: rest) last (by simpa using hmapped)
    rw [hbranch]
    exact Option.some_ne_none _

omit [DecidableEq K] in
/-- Nothing is below a path that holds a value. -/
theorem childless_of_leaf {path : List K} {value : V}
    (hleaf : map.entry path = some (.leaf value)) :
    map.Childless path := by
  intro key
  by_contra hmapped
  rw [map.parent_closed path key hmapped] at hleaf
  cases hleaf

omit [DecidableEq K] in
/-- A mapped path is not blocked. -/
theorem not_blocked_of_mapped {path : List K} (hmapped : map.entry path ≠ none) :
    ¬map.Blocked path := by
  rintro ⟨init, ⟨rest, rfl⟩, hne, value, hleaf⟩
  cases rest with
  | nil => simp at hne
  | cons key rest =>
    rw [map.branch_of_append hmapped] at hleaf
    cases hleaf

omit [DecidableEq K] in
/-- Nor is a path right below a branch. -/
theorem not_blocked_of_parent {path : List K} (hparent : map.entry path = some .branch) (key : K) :
    ¬map.Blocked (path ++ [key]) := by
  rintro ⟨init, hinit, hne, value, hleaf⟩
  rcases List.prefix_concat_iff.mp hinit with heq | hinit
  · exact hne (by simpa using heq)
  · have hmapped : map.entry path ≠ none := by
      rw [hparent]
      exact Option.some_ne_none _
    refine map.not_blocked_of_mapped hmapped ⟨init, hinit, ?_, value, hleaf⟩
    rintro rfl
    rw [hparent] at hleaf
    cases hleaf

end PathMap

end Hyperion.Lib
