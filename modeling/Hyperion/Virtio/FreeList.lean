import Hyperion.Lib.Transition
import Hyperion.Virtio.Queue

/-!
# The free list and the live chains of a virtqueue

Every descriptor is either on the free list or in exactly one chain handed out
and not yet given back.  `Owned q free chains` says so of concrete lists: `free`
is what the first `num_free` links from `free_head` give, each of `chains` is a
chain terminated by a descriptor without `NEXT`, and together they are a
permutation of all indices of the table.  Each operation moves indices between
these lists, so that the permutation is all there is to check about counting,
disjointness and bounds:

```text
alloc_desc   free = a :: rest,             chains          ~>  rest, [a] :: chains
link a b     free, [b] :: (front ++ [a]) :: chains         ~>  free, (front ++ [a, b]) :: chains
free_chain   free, (a :: rest) :: chains                   ~>  a :: free, rest :: chains
```

A write at one index leaves every list that does not contain it as it was
(`follow_set_of_notMem`, `linked_set_of_notMem`).
-/

namespace Hyperion.Virtio

open Hyperion.Lib

namespace Virtqueue

/-- The indices met when following `next` from `free_head` for `num_free` steps. -/
def freeList (q : Virtqueue) : List UInt16 := follow (nextOf q.desc) q.numFree.toNat q.freeHead

/-- The chain of descriptors that starts at `head`. -/
def chainFrom (q : Virtqueue) (head : UInt16) : List UInt16 :=
  walk (nextOf q.desc) (moreOf q.desc) q.size.toNat head

end Virtqueue

open Virtqueue

/-! ## Writing one descriptor -/

section Table

variable {desc : List Desc} {i j : UInt16} {d : Desc} {nodes : List UInt16}

theorem getElem?_set_of_ne (hne : j ≠ i) : (desc.set i.toNat d)[j.toNat]? = desc[j.toNat]? := by
  apply List.getElem?_set_ne
  intro heq
  exact hne (UInt16.toNat_inj.mp heq.symm)

theorem nextOf_set_of_ne (hne : j ≠ i) : nextOf (desc.set i.toNat d) j = nextOf desc j := by
  rw [nextOf, nextOf, getElem?_set_of_ne hne]

theorem moreOf_set_of_ne (hne : j ≠ i) : moreOf (desc.set i.toNat d) j = moreOf desc j := by
  rw [moreOf, moreOf, getElem?_set_of_ne hne]

theorem nextOf_set_self (hi : i.toNat < desc.length) : nextOf (desc.set i.toNat d) i = d.next := by
  rw [nextOf, List.getElem?_set_self hi]
  rfl

theorem moreOf_set_self (hi : i.toNat < desc.length) :
    moreOf (desc.set i.toNat d) i = d.hasNext := by
  rw [moreOf, List.getElem?_set_self hi]
  rfl

theorem follow_set_of_notMem {n : ℕ} {head : UInt16} (hi : i ∉ follow (nextOf desc) n head) :
    follow (nextOf (desc.set i.toNat d)) n head = follow (nextOf desc) n head := by
  apply follow_congr
  intro node hnode
  exact nextOf_set_of_ne (ne_of_mem_of_not_mem hnode hi)

theorem linked_set_of_notMem (hlinked : Linked (nextOf desc) (moreOf desc) nodes)
    (hi : i ∉ nodes) :
    Linked (nextOf (desc.set i.toNat d)) (moreOf (desc.set i.toNat d)) nodes := by
  apply hlinked.congr
  · intro node hnode
    exact nextOf_set_of_ne (ne_of_mem_of_not_mem hnode hi)
  · intro node hnode
    exact moreOf_set_of_ne (ne_of_mem_of_not_mem hnode hi)

end Table

/-! ## Who owns which descriptor -/

/-- All indices of a table of `size` descriptors. -/
def indices (size : UInt16) : List UInt16 := (List.range size.toNat).map UInt16.ofNat

variable {size : UInt16} {live : List UInt16} {q : Virtqueue}

theorem toNat_ofNat_of_lt_size {a : ℕ} (ha : a < size.toNat) :
    (UInt16.ofNat a).toNat = a :=
  UInt16.toNat_ofNat_of_lt' (ha.trans size.toNat_lt)

theorem nodup_indices (size : UInt16) : (indices size).Nodup := by
  apply List.Nodup.map_on _ List.nodup_range
  intro a ha b hb heq
  rw [List.mem_range] at ha hb
  rw [← toNat_ofNat_of_lt_size ha, heq, toNat_ofNat_of_lt_size hb]

theorem mem_indices {size i : UInt16} : i ∈ indices size ↔ i.toNat < size.toNat := by
  rw [indices, List.mem_map]
  constructor
  · rintro ⟨a, ha, rfl⟩
    rw [List.mem_range] at ha
    rwa [toNat_ofNat_of_lt_size ha]
  · intro hlt
    exact ⟨i.toNat, List.mem_range.mpr hlt, UInt16.ofNat_toNat⟩

/-- The free list is `free`, and `chains` are the chains handed out. -/
structure Owned (q : Virtqueue) (free : List UInt16) (chains : List (List UInt16)) : Prop where
  desc_length : q.desc.length = q.size.toNat
  free_eq : q.freeList = free
  linked : ∀ chain ∈ chains, Linked (nextOf q.desc) (moreOf q.desc) chain
  perm : (free ++ chains.flatten).Perm (indices q.size)

namespace Owned

variable {q : Virtqueue} {free : List UInt16} {chains : List (List UInt16)}

section

variable (owned : Owned q free chains)

include owned

theorem nodup : (free ++ chains.flatten).Nodup :=
  owned.perm.nodup_iff.mpr (nodup_indices q.size)

theorem lt_size {i : UInt16} (hi : i ∈ free ++ chains.flatten) :
    i.toNat < q.size.toNat :=
  mem_indices.mp (owned.perm.mem_iff.mp hi)

theorem lt_desc_length {i : UInt16} (hi : i ∈ free ++ chains.flatten) :
    i.toNat < q.desc.length := by
  rw [owned.desc_length]
  exact owned.lt_size hi

theorem length_add :
    free.length + chains.flatten.length = q.size.toNat := by
  rw [← List.length_append, owned.perm.length_eq]
  simp [indices]

theorem numFree_eq : q.numFree.toNat = free.length := by
  rw [← owned.free_eq, freeList, length_follow]

/-- The order in which the chains are listed does not matter. -/
theorem of_perm {chains' : List (List UInt16)} (hperm : chains.Perm chains') :
    Owned q free chains' where
  desc_length := owned.desc_length
  free_eq := owned.free_eq
  linked := fun chain hchain => owned.linked chain (hperm.mem_iff.mpr hchain)
  perm := ((hperm.flatten.symm.append_left free).trans owned.perm)

theorem chain_length_le {chain : List UInt16} (hchain : chain ∈ chains) :
    chain.length ≤ q.size.toNat := by
  have hsub : chain.length ≤ chains.flatten.length := (List.sublist_flatten_of_mem hchain).length_le
  have hadd := owned.length_add
  omega

theorem chainFrom_eq (head : UInt16) (rest : List UInt16) (hchain : head :: rest ∈ chains) :
    q.chainFrom head = head :: rest :=
  (owned.linked _ hchain).walk_eq (owned.chain_length_le hchain)

end

end Owned

/-! ## A new queue -/

theorem new_eq_ok (hnew : Virtqueue.new size = .ok q) :
    size.toNat.isPowerOfTwo ∧ q.size = size ∧ q.numFree = size ∧ q.freeHead = 0 ∧
      q.desc = (List.range size.toNat).map (freshDesc size) := by
  unfold Virtqueue.new at hnew
  split at hnew
  · rename_i hpow
    cases hnew
    exact ⟨hpow.1, rfl, rfl, rfl, rfl⟩
  · cases hnew

theorem nextOf_fresh {i : ℕ} (hi : i + 1 < size.toNat) :
    nextOf ((List.range size.toNat).map (freshDesc size)) (UInt16.ofNat i) =
      UInt16.ofNat (i + 1) := by
  have hlt : i < size.toNat := Nat.lt_of_succ_lt hi
  simp [nextOf, freshDesc, toNat_ofNat_of_lt_size hlt, hlt, hi]

/-- A new free list runs through the table from left to right. -/
theorem follow_fresh (size : UInt16) (n i : ℕ) (hn : i + n = size.toNat) :
    follow (nextOf ((List.range size.toNat).map (freshDesc size))) n (UInt16.ofNat i) =
      (List.range' i n).map UInt16.ofNat := by
  induction n generalizing i with
  | zero => rfl
  | succ n ih =>
    simp only [follow, List.range'_succ, List.map_cons]
    cases n with
    | zero => simp [follow]
    | succ n =>
      rw [nextOf_fresh (by omega), ih (i + 1) (by omega)]

theorem owned_new (hnew : Virtqueue.new size = .ok q) :
    Owned q (indices size) [] := by
  obtain ⟨_, hsize, hfree, hhead, hdesc⟩ := new_eq_ok hnew
  refine ⟨by simp [hdesc, hsize], ?_, by simp, by simp [hsize]⟩
  rw [freeList, hdesc, hfree, hhead, indices, List.range_eq_range']
  have hfollow := follow_fresh size size.toNat 0 (Nat.zero_add _)
  rwa [List.range_eq_range'] at hfollow

/-! ## Taking descriptors from the free list -/

section Alloc

variable {q : Virtqueue} {free : List UInt16} {chains : List (List UInt16)}

theorem Owned.getElem? (owned : Owned q free chains) {i : UInt16}
    (hi : i ∈ free ++ chains.flatten) : ∃ d, q.desc[i.toNat]? = some d :=
  ⟨_, List.getElem?_eq_getElem (owned.lt_desc_length hi)⟩

theorem nextOf_of_getElem? {desc : List Desc} {i : UInt16} {d : Desc}
    (hget : desc[i.toNat]? = some d) : nextOf desc i = d.next := by
  rw [nextOf, hget]
  rfl

theorem moreOf_of_getElem? {desc : List Desc} {i : UInt16} {d : Desc}
    (hget : desc[i.toNat]? = some d) : moreOf desc i = d.hasNext := by
  rw [moreOf, hget]
  rfl

theorem allocDesc_of_nil (owned : Owned q [] chains) : q.allocDesc = .ok (none, q) := by
  have hzero : q.numFree = 0 := UInt16.toNat_inj.mp owned.numFree_eq
  rw [allocDesc, if_pos hzero]
  rfl

theorem Owned.free_cons {a : UInt16} {rest : List UInt16} (owned : Owned q (a :: rest) chains) :
    q.freeHead = a ∧ q.numFree ≠ 0 ∧ (q.numFree - 1).toNat = rest.length ∧
      follow (nextOf q.desc) rest.length (nextOf q.desc a) = rest := by
  have hlength : q.numFree.toNat = rest.length + 1 := owned.numFree_eq
  have hfree := owned.free_eq
  rw [freeList, hlength] at hfree
  simp only [follow, List.cons.injEq] at hfree
  obtain ⟨rfl, hrest⟩ := hfree
  have hne : q.numFree ≠ 0 := by
    intro hzero
    simp [hzero] at hlength
  refine ⟨rfl, hne, ?_, hrest⟩
  rw [UInt16.toNat_sub_of_le _ _ (by rw [UInt16.le_iff_toNat_le]; simp; omega)]
  simp [hlength]

theorem allocDesc_of_cons {a : UInt16} {rest : List UInt16} (owned : Owned q (a :: rest) chains) :
    ∃ next, q.allocDesc = .ok (some a, next) ∧ next.size = q.size ∧
      Owned next rest ([a] :: chains) := by
  obtain ⟨hhead, hne, hcount, hrest⟩ := owned.free_cons
  have hmem : a ∈ a :: rest ++ chains.flatten := by simp
  have hlt := owned.lt_desc_length hmem
  obtain ⟨d, hget⟩ := owned.getElem? hmem
  obtain ⟨hnotRest, hnotChains⟩ : a ∉ rest ∧ a ∉ chains.flatten := by
    have hnodup := owned.nodup
    rw [List.cons_append, List.nodup_cons] at hnodup
    simpa using hnodup.1
  refine ⟨{ q with freeHead := d.next, numFree := q.numFree - 1, desc := q.desc.set a.toNat {} },
    ?_, rfl, ?_⟩
  · rw [allocDesc, if_neg hne, hhead]
    simp only [index_eq_ok.mpr hget, setIndex_of_lt _ hlt]
    rfl
  · refine ⟨by simpa using owned.desc_length, ?_, ?_, ?_⟩
    · rw [freeList]
      simp only [hcount]
      rw [← nextOf_of_getElem? hget, follow_set_of_notMem (by rwa [hrest]), hrest]
    · intro chain hchain
      rcases List.mem_cons.mp hchain with rfl | hchain
      · exact moreOf_set_self hlt
      · exact linked_set_of_notMem (owned.linked chain hchain)
          (fun ha => hnotChains (List.mem_flatten_of_mem hchain ha))
    · refine List.Perm.trans ?_ owned.perm
      simp

theorem allocDesc_of_owned (owned : Owned q free chains) :
    ∃ next, q.allocDesc = .ok (free.head?, next) := by
  cases free with
  | nil => exact ⟨q, allocDesc_of_nil owned⟩
  | cons a rest =>
    obtain ⟨next, halloc, _⟩ := allocDesc_of_cons owned
    exact ⟨next, halloc⟩

theorem hasNext_or_next (d : Desc) (next : UInt16) :
    ({ d with flags := d.flags ||| vringDescFNext, next } : Desc).hasNext = true := by
  rw [Desc.hasNext, bne_iff_ne]
  intro hzero
  have hnat := congrArg UInt16.toNat hzero
  simp only [vringDescFNext, UInt16.toNat_and, UInt16.toNat_or, Nat.and_or_distrib_right] at hnat
  simp at hnat

/-- Linking a lone descriptor behind the last one of a chain. -/
theorem link_of_owned {front : List UInt16} {a b : UInt16}
    (owned : Owned q free ([b] :: (front ++ [a]) :: chains)) :
    ∃ next, q.link a b = .ok next ∧ next.size = q.size ∧
      Owned next free ((front ++ [a, b]) :: chains) := by
  have hmem : a ∈ free ++ ([b] :: (front ++ [a]) :: chains).flatten := by simp
  have hlt := owned.lt_desc_length hmem
  obtain ⟨d, hget⟩ := owned.getElem? hmem
  have hperm : (free ++ ([b] :: (front ++ [a]) :: chains).flatten).Perm
      (a :: (free ++ front ++ b :: chains.flatten)) := by
    simp only [List.flatten_cons, List.append_assoc, List.cons_append, List.nil_append]
    grind
  have hnotMem : a ∉ free ++ front ++ b :: chains.flatten :=
    (List.nodup_cons.mp (hperm.nodup_iff.mp owned.nodup)).1
  simp only [List.mem_append, List.mem_cons, not_or] at hnotMem
  obtain ⟨⟨hnotFree, hnotFront⟩, hne, hnotChains⟩ := hnotMem
  have hfront := owned.linked (front ++ [a]) (by simp)
  have hb : moreOf q.desc b = false := owned.linked [b] (by simp)
  let linked : Desc := { d with flags := d.flags ||| vringDescFNext, next := b }
  refine ⟨{ q with desc := q.desc.set a.toNat linked }, ?_, rfl, ?_⟩
  · simp only [link, index_eq_ok.mpr hget, setIndex_of_lt _ hlt]
    rfl
  · refine ⟨by simpa using owned.desc_length, ?_, ?_, ?_⟩
    · have hfree := owned.free_eq
      rw [freeList] at hfree ⊢
      rw [← hfree] at hnotFree
      rw [follow_set_of_notMem hnotFree, hfree]
    · intro chain hchain
      rcases List.mem_cons.mp hchain with rfl | hchain
      · refine hfront.append_singleton ?_ ?_ ?_ ?_ ?_
        · exact fun n hn => nextOf_set_of_ne (ne_of_mem_of_not_mem hn hnotFront)
        · exact fun n hn => moreOf_set_of_ne (ne_of_mem_of_not_mem hn hnotFront)
        · rw [moreOf_set_self hlt, hasNext_or_next]
        · rw [nextOf_set_self hlt]
        · rw [moreOf_set_of_ne (Ne.symm hne), hb]
      · exact linked_set_of_notMem (owned.linked chain (by simp [hchain]))
          (fun ha => hnotChains (List.mem_flatten_of_mem hchain ha))
    · refine List.Perm.trans ?_ owned.perm
      simp only [List.flatten_cons, List.append_assoc, List.cons_append, List.nil_append]
      grind

/-- One turn of the loop of `alloc_chain` while there are free descriptors. -/
theorem extendChain_of_cons {a prev : UInt16} {rest front : List UInt16}
    (owned : Owned q (a :: rest) ((front ++ [prev]) :: chains)) :
    ∃ next, (∀ head turns, extendChain head (turns + 1) prev q = extendChain head turns a next) ∧
      next.size = q.size ∧ Owned next rest ((front ++ [prev] ++ [a]) :: chains) := by
  obtain ⟨q₁, halloc, hsize₁, howned₁⟩ := allocDesc_of_cons owned
  obtain ⟨q₂, hlink, hsize₂, howned₂⟩ := link_of_owned howned₁
  refine ⟨q₂, ?_, hsize₂.trans hsize₁, by simpa using howned₂⟩
  intro head turns
  rw [extendChain, halloc]
  show (q₁.link prev a >>= fun q => extendChain head turns a q) = _
  rw [hlink]
  rfl

/-- The loop of `alloc_chain` moves the next descriptors of the free list to the
end of the chain. -/
theorem extendChain_of_owned (head : UInt16) (turns : ℕ) :
    ∀ {q : Virtqueue} {free : List UInt16} (front : List UInt16) (prev : UInt16),
      Owned q free ((front ++ [prev]) :: chains) → turns ≤ free.length →
      ∃ next, extendChain head turns prev q = .ok (some head, next) ∧ next.size = q.size ∧
        Owned next (free.drop turns) ((front ++ [prev] ++ free.take turns) :: chains) := by
  induction turns with
  | zero =>
    intro q free front prev owned _
    exact ⟨q, rfl, rfl, by simpa using owned⟩
  | succ turns ih =>
    intro q free front prev owned hturns
    cases free with
    | nil => simp at hturns
    | cons a rest =>
      obtain ⟨q₁, hturn, hsize₁, howned₁⟩ := extendChain_of_cons owned
      obtain ⟨q₂, hextend, hsize₂, howned₂⟩ := ih _ a howned₁ (by simpa using hturns)
      exact ⟨q₂, (hturn head turns).trans hextend, hsize₂.trans hsize₁, by simpa using howned₂⟩

theorem allocChain_of_le {n : ℕ} (owned : Owned q free chains) (hpos : 1 ≤ n)
    (hle : n ≤ free.length) :
    ∃ head rest next, q.allocChain n = .ok (some head, next) ∧ next.size = q.size ∧
      free.take n = head :: rest ∧ Owned next (free.drop n) ((head :: rest) :: chains) := by
  cases free with
  | nil => simp at hle; omega
  | cons a rest =>
    obtain ⟨q₁, halloc, hsize₁, howned₁⟩ := allocDesc_of_cons owned
    obtain ⟨q₂, hextend, hsize₂, howned₂⟩ := extendChain_of_owned a (n - 1) [] a howned₁
      (by simp at hle; omega)
    obtain ⟨k, rfl⟩ : ∃ k, n = k + 1 := ⟨n - 1, by omega⟩
    refine ⟨a, rest.take k, q₂, ?_, by rw [hsize₂, hsize₁], rfl, by simpa using howned₂⟩
    have hguard : ¬(q.numFree < UInt16.ofNat (k + 1) ∨ k + 1 = 0) := by
      have hcount := owned.numFree_eq
      have hbound := q.numFree.toNat_lt
      rw [UInt16.lt_iff_toNat_lt, UInt16.toNat_ofNat_of_lt' (show k + 1 < 2 ^ 16 by omega)]
      omega
    rw [allocChain, if_neg hguard, halloc]
    exact hextend

theorem allocChain_of_not_le {n : ℕ} (owned : Owned q free chains) (hn : n < 65536)
    (hnot : ¬(1 ≤ n ∧ n ≤ free.length)) : q.allocChain n = .ok (none, q) := by
  have hguard : q.numFree < UInt16.ofNat n ∨ n = 0 := by
    have hcount := owned.numFree_eq
    rw [UInt16.lt_iff_toNat_lt, UInt16.toNat_ofNat_of_lt' hn]
    omega
  rw [allocChain, if_pos hguard]
  rfl

end Alloc

/-! ## Giving descriptors back -/

section Free

variable {q : Virtqueue} {free : List UInt16} {chains : List (List UInt16)}

/-- The queue after one turn of the loop of `free_chain`. -/
def Virtqueue.released (q : Virtqueue) (idx : UInt16) (d : Desc) : Virtqueue :=
  { q with
    desc := q.desc.set idx.toNat { d with flags := vringDescFNext, next := q.freeHead }
    freeHead := idx
    numFree := q.numFree + 1 }

theorem Owned.room {a : UInt16} {rest : List UInt16}
    (owned : Owned q free ((a :: rest) :: chains)) : q.numFree.toNat + 1 < 2 ^ 16 := by
  have hadd := owned.length_add
  have hcount := owned.numFree_eq
  have hbound := q.size.toNat_lt
  simp only [List.flatten_cons, List.length_append, List.length_cons] at hadd
  omega

theorem Owned.release {a : UInt16} {rest : List UInt16} {d : Desc} {chains' : List (List UInt16)}
    (owned : Owned q free ((a :: rest) :: chains))
    (hlinked : ∀ chain ∈ chains', Linked (nextOf q.desc) (moreOf q.desc) chain)
    (hflatten : chains'.flatten = rest ++ chains.flatten) :
    Owned (q.released a d) (a :: free) chains' := by
  have hlt := owned.lt_desc_length (i := a) (by simp)
  have hperm : (a :: free ++ chains'.flatten).Perm
      (free ++ ((a :: rest) :: chains).flatten) := by
    rw [hflatten, List.flatten_cons, List.cons_append, List.cons_append]
    exact List.perm_middle.symm
  have hnotMem : a ∉ free ++ chains'.flatten :=
    (List.nodup_cons.mp (hperm.nodup_iff.mpr owned.nodup)).1
  rw [List.mem_append, not_or] at hnotMem
  refine ⟨by simpa [released] using owned.desc_length, ?_, ?_, hperm.trans owned.perm⟩
  · have hcount : (q.released a d).numFree.toNat = q.numFree.toNat + 1 := by
      rw [released, UInt16.toNat_add, UInt16.toNat_one, Nat.mod_eq_of_lt owned.room]
    have hfree : follow (nextOf q.desc) q.numFree.toNat q.freeHead = free := owned.free_eq
    rw [freeList, hcount, released]
    simp only [follow]
    rw [nextOf_set_self hlt, follow_set_of_notMem (by rw [hfree]; exact hnotMem.1), hfree]
  · intro chain hchain
    exact linked_set_of_notMem (hlinked chain hchain)
      (fun ha => hnotMem.2 (List.mem_flatten_of_mem hchain ha))

theorem freeTurn_eq {idx : UInt16} {d : Desc} (hget : q.desc[idx.toNat]? = some d)
    (hroom : q.numFree.toNat + 1 < 2 ^ 16) :
    freeTurn (q, idx) = .ok (if moreOf q.desc idx then .again (q.released idx d, nextOf q.desc idx)
      else .leave (q.released idx d)) := by
  have hlt : idx.toNat < q.desc.length := (List.getElem?_eq_some_iff.mp hget).1
  simp only [freeTurn, index_eq_ok.mpr hget, setIndex_of_lt _ hlt, moreOf_of_getElem? hget,
    nextOf_of_getElem? hget]
  simp only [bind, Except.bind, if_pos hroom]
  rfl

/-- One turn of `free_chain` on a chain that goes on. -/
theorem freeTurn_of_owned {a b : UInt16} {rest : List UInt16}
    (owned : Owned q free ((a :: b :: rest) :: chains)) :
    ∃ d, freeTurn (q, a) = .ok (.again (q.released a d, b)) ∧
      Owned (q.released a d) (a :: free) ((b :: rest) :: chains) := by
  obtain ⟨d, hget⟩ := owned.getElem? (i := a) (by simp)
  obtain ⟨hmore, hnext, hrest⟩ := owned.linked (a :: b :: rest) (by simp)
  refine ⟨d, ?_, owned.release ?_ rfl⟩
  · rw [freeTurn_eq hget owned.room, hmore, hnext]
    rfl
  · intro chain hchain
    rcases List.mem_cons.mp hchain with rfl | hchain
    · exact hrest
    · exact owned.linked chain (by simp [hchain])

/-- `free_chain` ends and puts the descriptors of the chain in front of the free
list, the last one first. -/
theorem freeChain_of_owned {a : UInt16} {rest : List UInt16}
    (owned : Owned q free ((a :: rest) :: chains)) :
    ∃ next, (∀ fuel, (a :: rest).length ≤ fuel → q.freeChain a fuel = .ok next) ∧
      next.size = q.size ∧ Owned next ((a :: rest).reverse ++ free) chains := by
  induction rest generalizing q free a with
  | nil =>
    obtain ⟨d, hget⟩ := owned.getElem? (i := a) (by simp)
    have hlast : moreOf q.desc a = false := owned.linked [a] (by simp)
    refine ⟨q.released a d, ?_, rfl, ?_⟩
    · intro fuel hfuel
      obtain ⟨fuel, rfl⟩ : ∃ n, fuel = n + 1 := ⟨fuel - 1, by simp at hfuel; omega⟩
      exact loop_leave (by rw [freeTurn_eq hget owned.room, hlast]; rfl) fuel
    · exact owned.release (fun chain hchain => owned.linked chain (by simp [hchain])) rfl
  | cons b rest ih =>
    obtain ⟨d, hturn, hreleased⟩ := freeTurn_of_owned owned
    obtain ⟨next, hloop, hsize, howned⟩ := ih hreleased
    refine ⟨next, ?_, hsize, by simpa using howned⟩
    intro fuel hfuel
    obtain ⟨fuel, rfl⟩ : ∃ n, fuel = n + 1 := ⟨fuel - 1, by simp at hfuel; omega⟩
    rw [freeChain, loop_again hturn]
    exact hloop fuel (by simpa using hfuel)

end Free

/-! ## Filling descriptors -/

theorem fillDesc_of_getElem? {idx : UInt16} {d : Desc} (hget : q.desc[idx.toNat]? = some d)
    (addr : UInt64) (len : UInt32) (flags : UInt16) :
    q.fillDesc idx addr len flags =
      .ok { q with desc := q.desc.set idx.toNat { d with addr, len, flags } } := by
  have hlt := (List.getElem?_eq_some_iff.mp hget).1
  simp only [fillDesc, index_eq_ok.mpr hget, setIndex_of_lt _ hlt]
  rfl

theorem fillDesc_of_owned {free : List UInt16} {chains : List (List UInt16)} {idx flags : UInt16}
    (addr : UInt64) (len : UInt32) (owned : Owned q free chains) (hmem : idx ∈ chains.flatten)
    (hflags : (flags &&& vringDescFNext != 0) = moreOf q.desc idx) :
    ∃ next, q.fillDesc idx addr len flags = .ok next ∧ next.size = q.size ∧
      Owned next free chains := by
  have hall : idx ∈ free ++ chains.flatten := List.mem_append_right _ hmem
  have hlt := owned.lt_desc_length hall
  obtain ⟨d, hget⟩ := owned.getElem? hall
  have hnext : ∀ j, nextOf (q.desc.set idx.toNat { d with addr, len, flags }) j =
      nextOf q.desc j := by
    intro j
    by_cases hj : j = idx
    · rw [hj, nextOf_set_self hlt, nextOf_of_getElem? hget]
    · exact nextOf_set_of_ne hj
  have hmore : ∀ j, moreOf (q.desc.set idx.toNat { d with addr, len, flags }) j =
      moreOf q.desc j := by
    intro j
    by_cases hj : j = idx
    · rw [hj, moreOf_set_self hlt, ← hflags]
      rfl
    · exact moreOf_set_of_ne hj
  refine ⟨_, fillDesc_of_getElem? hget addr len flags, rfl, ?_⟩
  refine ⟨by simpa using owned.desc_length, ?_, ?_, owned.perm⟩
  · rw [freeList, follow_congr fun j _ => hnext j]
    exact owned.free_eq
  · intro chain hchain
    exact (owned.linked chain hchain).congr (fun j _ => hnext j) (fun j _ => hmore j)

/-! ## Runs -/

/-- A queue and the heads of the chains its drivers hold. -/
structure Driven where
  queue : Virtqueue
  live : List UInt16
  deriving DecidableEq, Repr

/-- A call on the queue with its answer, or a write to a descriptor in a live chain. -/
inductive Op where
  | allocDesc (result : Option UInt16)
  | allocChain (n : ℕ) (result : Option UInt16)
  | fill (idx : UInt16)
  | freeChain (head : UInt16)

/-- What drivers do to a queue.  They only fill and free chains they hold, and
what they write into `flags` has `NEXT` exactly on the descriptors that are not
the last of their chain. -/
inductive Step : Driven → Op → Driven → Prop
  | allocDesc {q next : Virtqueue} {live : List UInt16} {result : Option UInt16}
      (hcall : q.allocDesc = .ok (result, next)) :
      Step ⟨q, live⟩ (.allocDesc result) ⟨next, result.toList ++ live⟩
  | allocChain {q next : Virtqueue} {live : List UInt16} {n : ℕ} {result : Option UInt16}
      (hn : n < 65536) (hcall : q.allocChain n = .ok (result, next)) :
      Step ⟨q, live⟩ (.allocChain n result) ⟨next, result.toList ++ live⟩
  | fill {q next : Virtqueue} {live : List UInt16} {head idx : UInt16}
      {addr : UInt64} {len : UInt32} {flags : UInt16}
      (hlive : head ∈ live) (hidx : idx ∈ q.chainFrom head)
      (hflags : flags &&& vringDescFNext ≠ 0 ↔ (q.chainFrom head).getLast? ≠ some idx)
      (hcall : q.fillDesc idx addr len flags = .ok next) :
      Step ⟨q, live⟩ (.fill idx) ⟨next, live⟩
  | freeChain {q next : Virtqueue} {live : List UInt16} {head : UInt16} {fuel : ℕ}
      (hlive : head ∈ live) (hcall : q.freeChain head fuel = .ok next) :
      Step ⟨q, live⟩ (.freeChain head) ⟨next, live.erase head⟩

/-- The live chains are the ones that start at the live heads. -/
structure Sound (size : UInt16) (state : Driven) : Prop where
  size_eq : state.queue.size = size
  owned : Owned state.queue state.queue.freeList (state.live.map state.queue.chainFrom)

theorem Owned.chainFrom_cons {free live : List UInt16} {head : UInt16}
    (owned : Owned q free (live.map q.chainFrom)) (hlive : head ∈ live) :
    ∃ rest, q.chainFrom head = head :: rest := by
  have hne : q.chainFrom head ≠ [] := (owned.linked _ (List.mem_map_of_mem hlive)).ne_nil
  unfold chainFrom at hne ⊢
  cases hsize : q.size.toNat with
  | zero =>
    rw [hsize] at hne
    exact (hne rfl).elim
  | succ fuel => exact ⟨_, rfl⟩

/-- An operation that keeps the nodes of a chain keeps what its head leads to. -/
theorem Owned.chainFrom_congr {q next : Virtqueue} {free free' live : List UInt16}
    {chains : List (List UInt16)} {head : UInt16}
    (owned : Owned q free (live.map q.chainFrom)) (hlive : head ∈ live)
    (hnext : Owned next free' chains) (hmem : q.chainFrom head ∈ chains) :
    next.chainFrom head = q.chainFrom head := by
  obtain ⟨rest, hrest⟩ := owned.chainFrom_cons hlive
  rw [hrest] at hmem ⊢
  exact hnext.chainFrom_eq head rest hmem

theorem Sound.of_owned {q next : Virtqueue} {live kept : List UInt16} {free : List UInt16}
    (heads : List UInt16) (fresh : List (List UInt16)) (sound : Sound size ⟨q, live⟩)
    (hsize : next.size = q.size) (hnext : Owned next free (fresh ++ kept.map q.chainFrom))
    (hkept : ∀ head ∈ kept, head ∈ live) (hfresh : fresh = heads.map next.chainFrom) :
    Sound size ⟨next, heads ++ kept⟩ := by
  have hsame : kept.map next.chainFrom = kept.map q.chainFrom := by
    apply List.map_congr_left
    intro head hhead
    exact sound.owned.chainFrom_congr (hkept head hhead) hnext
      (List.mem_append_right _ (List.mem_map_of_mem hhead))
  refine ⟨hsize.trans sound.size_eq, ?_⟩
  show Owned next next.freeList ((heads ++ kept).map next.chainFrom)
  rw [hnext.free_eq, List.map_append, hsame, ← hfresh]
  exact hnext

section

variable (sound : Sound size ⟨q, live⟩)

include sound

theorem sound_allocDesc {next : Virtqueue} {result : Option UInt16}
    (hcall : q.allocDesc = .ok (result, next)) : Sound size ⟨next, result.toList ++ live⟩ := by
  have howned : Owned q q.freeList (live.map q.chainFrom) := sound.owned
  cases hfree : q.freeList with
  | nil =>
    rw [hfree] at howned
    rw [allocDesc_of_nil howned] at hcall
    cases hcall
    exact sound
  | cons a rest =>
    rw [hfree] at howned
    obtain ⟨after, halloc, hsize, hafter⟩ := allocDesc_of_cons howned
    rw [halloc] at hcall
    cases hcall
    refine sound.of_owned [a] [[a]] hsize hafter (fun _ h => h) ?_
    simp [hafter.chainFrom_eq a [] (by simp)]

theorem sound_allocChain {next : Virtqueue} {n : ℕ} {result : Option UInt16} (hn : n < 65536)
    (hcall : q.allocChain n = .ok (result, next)) :
    Sound size ⟨next, result.toList ++ live⟩ := by
  have howned : Owned q q.freeList (live.map q.chainFrom) := sound.owned
  by_cases hfits : 1 ≤ n ∧ n ≤ q.freeList.length
  · obtain ⟨head, rest, after, halloc, hsize, _, hafter⟩ :=
      allocChain_of_le howned hfits.1 hfits.2
    rw [halloc] at hcall
    cases hcall
    refine sound.of_owned [head] [head :: rest] hsize hafter (fun _ h => h) ?_
    simp [hafter.chainFrom_eq head rest (by simp)]
  · rw [allocChain_of_not_le howned hn hfits] at hcall
    cases hcall
    exact sound

theorem Sound.more_iff {head idx : UInt16} (hlive : head ∈ live) (hidx : idx ∈ q.chainFrom head) :
    moreOf q.desc idx = true ↔ (q.chainFrom head).getLast? ≠ some idx := by
  have hmem : q.chainFrom head ∈ live.map q.chainFrom := List.mem_map_of_mem hlive
  have hnodup : (q.chainFrom head).Nodup :=
    (List.nodup_flatten.mp (List.nodup_append.mp sound.owned.nodup).2.1).1 _ hmem
  exact (sound.owned.linked _ hmem).more_iff hnodup hidx

theorem sound_fill {next : Virtqueue} {head idx : UInt16} {addr : UInt64} {len : UInt32}
    {flags : UInt16} (hlive : head ∈ live) (hidx : idx ∈ q.chainFrom head)
    (hflags : flags &&& vringDescFNext ≠ 0 ↔ (q.chainFrom head).getLast? ≠ some idx)
    (hcall : q.fillDesc idx addr len flags = .ok next) : Sound size ⟨next, live⟩ := by
  have hbit : (flags &&& vringDescFNext != 0) = moreOf q.desc idx := by
    rw [Bool.eq_iff_iff, bne_iff_ne, hflags, sound.more_iff hlive hidx]
  obtain ⟨after, hfill, hsize, hafter⟩ := fillDesc_of_owned addr len sound.owned
    (List.mem_flatten_of_mem (List.mem_map_of_mem hlive) hidx) hbit
  obtain rfl : after = next := Except.ok.inj (hfill.symm.trans hcall)
  exact sound.of_owned [] [] hsize hafter (fun _ h => h) rfl

/-- Freeing a live chain, with the queue it leaves behind. -/
theorem freeChain_of_sound {head : UInt16} (hlive : head ∈ live) :
    ∃ next, (∀ fuel, size.toNat ≤ fuel → q.freeChain head fuel = .ok next) ∧
      next.freeList = (q.chainFrom head).reverse ++ q.freeList ∧
      (∀ other ∈ live.erase head, next.chainFrom other = q.chainFrom other) ∧
      Sound size ⟨next, live.erase head⟩ := by
  have howned : Owned q q.freeList (live.map q.chainFrom) := sound.owned
  obtain ⟨rest, hrest⟩ := howned.chainFrom_cons hlive
  have hperm : (live.map q.chainFrom).Perm
      ((head :: rest) :: (live.erase head).map q.chainFrom) := by
    rw [← hrest]
    exact (List.perm_cons_erase hlive).map q.chainFrom
  have hfront := howned.of_perm hperm
  obtain ⟨next, hloop, hsize, hnext⟩ := freeChain_of_owned hfront
  refine ⟨next, ?_, by rw [hnext.free_eq, hrest], ?_, ?_⟩
  · intro fuel hfuel
    apply hloop fuel
    calc (head :: rest).length ≤ q.size.toNat := hfront.chain_length_le (by simp)
      _ = size.toNat := by rw [← sound.size_eq]
      _ ≤ fuel := hfuel
  · intro other hother
    exact howned.chainFrom_congr (List.mem_of_mem_erase hother) hnext (List.mem_map_of_mem hother)
  · exact sound.of_owned [] [] hsize hnext
      (fun _ h => List.mem_of_mem_erase h) rfl

end

theorem step_sound (size : UInt16) (state : Driven) (op : Op) (next : Driven)
    (sound : Sound size state) (step : Step state op next) : Sound size next := by
  cases step with
  | allocDesc hcall => exact sound_allocDesc sound hcall
  | allocChain hn hcall => exact sound_allocChain sound hn hcall
  | fill hlive hidx hflags hcall => exact sound_fill sound hlive hidx hflags hcall
  | freeChain hlive hcall =>
    rename_i q next live head fuel
    obtain ⟨after, hloop, _, _, hafter⟩ := freeChain_of_sound sound hlive
    -- any fuel that lets the loop end gives the same queue
    have hsame : q.freeChain head (max fuel size.toNat) = .ok next :=
      loop_eq_ok_of_le (le_max_left _ _) hcall
    obtain rfl : after = next :=
      Except.ok.inj ((hloop _ (le_max_right _ _)).symm.trans hsame)
    exact hafter

theorem run_sound {start : Virtqueue} (hnew : Virtqueue.new size = .ok start) {ops : List Op}
    {state : Driven} (run : Run Step ⟨start, []⟩ ops state) :
    Sound size state := by
  have hstart : Sound size ⟨start, []⟩ := by
    have howned := owned_new hnew
    refine ⟨(new_eq_ok hnew).2.1, ?_⟩
    show Owned start start.freeList []
    rw [howned.free_eq]
    exact howned
  exact run.invariant (Sound size) hstart (step_sound size)

/-- What `alloc_chain` answers on a queue in use. -/
theorem allocChain_of_sound (sound : Sound size ⟨q, live⟩) {n : ℕ} (hn : n < 65536) :
    ∃ result next, q.allocChain n = .ok (result, next) ∧
      (result.isSome ↔ 1 ≤ n ∧ n ≤ q.numFree.toNat) ∧ (result = none → next = q) ∧
      ∀ head, result = some head →
        next.chainFrom head = q.freeList.take n ∧ (next.chainFrom head).length = n ∧
        Linked (nextOf next.desc) (moreOf next.desc) (next.chainFrom head) ∧
        next.freeList = q.freeList.drop n ∧
        ∀ other ∈ live, next.chainFrom other = q.chainFrom other := by
  have howned : Owned q q.freeList (live.map q.chainFrom) := sound.owned
  rw [howned.numFree_eq]
  by_cases hfits : 1 ≤ n ∧ n ≤ q.freeList.length
  · obtain ⟨first, rest, next, halloc, _, htake, hnext⟩ :=
      allocChain_of_le howned hfits.1 hfits.2
    refine ⟨some first, next, halloc, by simpa using hfits, by simp, ?_⟩
    intro head hhead
    obtain rfl : first = head := Option.some.inj hhead
    have hchain : next.chainFrom first = first :: rest := hnext.chainFrom_eq first rest (by simp)
    refine ⟨hchain.trans htake.symm, ?_, ?_, hnext.free_eq, ?_⟩
    · rw [hchain, ← htake, List.length_take, min_eq_left hfits.2]
    · rw [hchain]
      exact hnext.linked _ (by simp)
    · intro other hother
      exact howned.chainFrom_congr hother hnext
        (List.mem_cons_of_mem _ (List.mem_map_of_mem hother))
  · exact ⟨none, q, allocChain_of_not_le howned hn hfits, by simpa using hfits, by simp, by simp⟩

/-- **Drivers never lose, share or leak a descriptor.**  Whatever drivers do to a
new queue, the free list and the live chains partition the table, `alloc_chain`
takes its descriptors from the front of the free list exactly when there are
enough, and `free_chain` ends and puts back exactly the descriptors of its
chain. -/
theorem reachable_descriptors (size : UInt16) (hsize : size.toNat.isPowerOfTwo) :
    ∃ start, Virtqueue.new size = .ok start ∧
      ∀ (ops : List Op) (q : Virtqueue) (live : List UInt16), Run Step ⟨start, []⟩ ops ⟨q, live⟩ →
        let chains := live.map q.chainFrom
        q.freeList.length = q.numFree.toNat ∧ (q.freeList ++ chains.flatten).Nodup ∧
        (∀ i ∈ q.freeList ++ chains.flatten, i.toNat < size.toNat) ∧
        q.numFree.toNat + chains.flatten.length = size.toNat ∧
        (∀ head ∈ live, (q.chainFrom head).head? = some head ∧
          Linked (nextOf q.desc) (moreOf q.desc) (q.chainFrom head)) ∧
        (∃ next, q.allocDesc = .ok (q.freeList.head?, next)) ∧
        (∀ n < 65536, ∃ result next, q.allocChain n = .ok (result, next) ∧
          (result.isSome ↔ 1 ≤ n ∧ n ≤ q.numFree.toNat) ∧ (result = none → next = q) ∧
          ∀ head, result = some head →
            next.chainFrom head = q.freeList.take n ∧ (next.chainFrom head).length = n ∧
            Linked (nextOf next.desc) (moreOf next.desc) (next.chainFrom head) ∧
            next.freeList = q.freeList.drop n ∧
            ∀ other ∈ live, next.chainFrom other = q.chainFrom other) ∧
        ∀ head ∈ live, ∃ next, (∀ fuel, size.toNat ≤ fuel → q.freeChain head fuel = .ok next) ∧
          next.freeList = (q.chainFrom head).reverse ++ q.freeList ∧
          ∀ other ∈ live.erase head, next.chainFrom other = q.chainFrom other := by
  obtain ⟨start, hnew⟩ := new_of_isPowerOfTwo hsize
  refine ⟨start, hnew, ?_⟩
  intro ops q live run chains
  have sound := run_sound hnew run
  have howned : Owned q q.freeList chains := sound.owned
  have hqsize : q.size = size := sound.size_eq
  refine ⟨howned.numFree_eq.symm, howned.nodup, ?_, ?_, ?_, allocDesc_of_owned howned,
    fun n hn => allocChain_of_sound sound hn, ?_⟩
  · intro i hi
    rw [← hqsize]
    exact howned.lt_size hi
  · rw [howned.numFree_eq, howned.length_add, hqsize]
  · intro head hlive
    obtain ⟨rest, hrest⟩ := howned.chainFrom_cons hlive
    exact ⟨by rw [hrest]; rfl, howned.linked _ (List.mem_map_of_mem hlive)⟩
  · intro head hlive
    obtain ⟨next, hloop, hfree, hothers, _⟩ := freeChain_of_sound sound hlive
    exact ⟨next, hloop, hfree, hothers⟩

/-- A queue of four descriptors with empty rings. -/
def queueOfFour (desc : List Desc) (freeHead numFree : UInt16) : Virtqueue :=
  { size := 4, desc, avail := List.replicate 14 0, used := List.replicate 38 0,
    freeHead, numFree, lastUsedIdx := 0 }

theorem reachable_descriptors_queueOfFour :
    ∃ start q, Virtqueue.new 4 = .ok start ∧
      Run Step ⟨start, []⟩ [.allocChain 3 (some 0), .fill 1, .freeChain 0] ⟨q, []⟩ ∧
      q.freeList = [2, 1, 0, 3] ∧ q.freeList.length = q.numFree.toNat := by
  let start := queueOfFour [⟨0, 0, 1, 1⟩, ⟨0, 0, 1, 2⟩, ⟨0, 0, 1, 3⟩, ⟨0, 0, 1, 0⟩] 0 4
  let chained := queueOfFour [⟨0, 0, 1, 1⟩, ⟨0, 0, 1, 2⟩, ⟨0, 0, 0, 0⟩, ⟨0, 0, 1, 0⟩] 3 1
  let filled := queueOfFour [⟨0, 0, 1, 1⟩, ⟨4096, 512, 3, 2⟩, ⟨0, 0, 0, 0⟩, ⟨0, 0, 1, 0⟩] 3 1
  let freed := queueOfFour [⟨0, 0, 1, 3⟩, ⟨4096, 512, 1, 0⟩, ⟨0, 0, 1, 1⟩, ⟨0, 0, 1, 0⟩] 2 4
  have hchain : Step ⟨start, []⟩ (.allocChain 3 (some 0)) ⟨chained, [0]⟩ :=
    .allocChain (by decide) (by decide +kernel)
  have hfill : Step ⟨chained, [0]⟩ (.fill 1) ⟨filled, [0]⟩ := by
    have hcall : chained.fillDesc 1 4096 512 3 = .ok filled := rfl
    exact .fill (show 0 ∈ [0] by decide) (by decide +kernel) (by decide +kernel) hcall
  have hfree : Step ⟨filled, [0]⟩ (.freeChain 0) ⟨freed, []⟩ := by
    have hcall : filled.freeChain 0 4 = .ok freed := rfl
    exact .freeChain (show 0 ∈ [0] by decide) hcall
  obtain ⟨_, hnew, hall⟩ := reachable_descriptors 4 (by decide)
  obtain rfl : start = _ := Except.ok.inj hnew
  have hrun := ((Run.nil.snoc hchain).snoc hfill).snoc hfree
  exact ⟨start, freed, hnew, hrun, rfl, (hall _ _ _ hrun).1⟩

end Hyperion.Virtio
