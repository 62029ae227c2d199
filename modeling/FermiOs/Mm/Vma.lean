import FermiOs.Library.Segments
import FermiOs.Mm.Mmu

/-!
# VMA sets

`mm/vma/vma.c`. A task's set is the packed array of the source as a list, in the order of the array;
a region records its range, protection, flags and one physical page (or `0`) per page of the range.
Arrays may be longer than the range: after a split the head keeps the whole array, and only its
first `npages` entries count.

The functions are read through three views of a set. `vmaSeg.Holds` says which page of which region
is recorded where; `slots` lists the recorded physical pages, in order; `VmaOk` is the shape of one
region. Each operation gets one lemma that says what it does to the list up to reordering, from which
the views follow without looking into the operation again.
-/

namespace FermiOs
open Library List

/-- `vma_t`. -/
structure Vma where
  start : Nat
  end_ : Nat
  prot : Nat
  flags : Nat
  pages : List Nat
  deriving DecidableEq

/-- `vma_set_t`: the entries below `count`. -/
abbrev VmaSet := List Vma

/-- `VMA_MAX_PER_TASK`. -/
def vmaMaxPerTask : Nat := 32

/-- `VMA_ANONYMOUS`. -/
def vmaAnonymous : Nat := 1

/-- `VMA_SHARED`. -/
def vmaShared : Nat := 2

namespace Vma

section
variable (v : Vma)

/-- `vma_npages`. -/
def npages : Nat := (v.end_ - v.start) / 4096

/-- The physical page recorded for the page of `va`, `0` when none is. -/
def slot (va : Nat) : Nat := v.pages.getD ((va - v.start) / 4096) 0

/-- The physical pages a region records. -/
def slots : List Nat := (v.pages.take v.npages).filter (· ≠ 0)

/-- The two halves of a region cut at `va`: the head keeps the array, the tail gets a copy of the
upper entries. -/
def head (va : Nat) : Vma := { v with end_ := va }

@[inherit_doc head]
def tail (va : Nat) : Vma where
  start := va
  end_ := v.end_
  prot := v.prot
  flags := v.flags
  pages := (v.pages.drop ((va - v.start) / 4096)).take ((v.end_ - va) / 4096)

end

/-- Two neighbours put together, with a fresh array. -/
def weld (a b : Vma) : Vma :=
  { a with end_ := b.end_, pages := a.pages.take a.npages ++ b.pages.take b.npages }

/-- Neighbours that `vma_merge_adjacent` welds. -/
def Mergeable (a b : Vma) : Prop := a.end_ = b.start ∧ a.prot = b.prot ∧ a.flags = b.flags
deriving Decidable

end Vma

/-- `vma_find`. -/
def vmaFind (set : VmaSet) (va : Nat) : Option Vma :=
  set.find? fun v => decide (v.start ≤ va ∧ va < v.end_)

/-- `vma_find_overlap`. -/
def vmaFindOverlap (set : VmaSet) (start end_ : Nat) : Option Vma :=
  set.find? fun v => decide (start < v.end_ ∧ v.start < end_)

/-- An assignment through the pointer `vma_find` returns. -/
def vmaModify (set : VmaSet) (va : Nat) (f : Vma → Vma) : VmaSet :=
  match set with
  | [] => []
  | v :: vs => if v.start ≤ va ∧ va < v.end_ then f v :: vs else v :: vmaModify vs va f

/-- The shifting loop of `vma_insert_sorted`, on the entries from the last one down. -/
def insertBack (v : Vma) : VmaSet → VmaSet
  | [] => [v]
  | e :: es => if v.start < e.start then e :: insertBack v es else v :: e :: es

/-- `vma_insert_sorted`. -/
def vmaInsertSorted (set : VmaSet) (v : Vma) : VmaSet := (insertBack v set.reverse).reverse

/-- `vma_add`: the new set, or `none` for the null pointer with the set unchanged. -/
def vmaAdd (k : Kernel) (set : VmaSet) (start end_ prot flags : Nat) : Option VmaSet × Kernel :=
  if end_ ≤ start then (none, k)
  else if start % 4096 ≠ 0 ∨ end_ % 4096 ≠ 0 then (none, k)
  else if vmaMaxPerTask ≤ set.length then (none, k)
  else if (vmaFindOverlap set start end_).isSome then (none, k)
  else
    let npages := (end_ - start) / 4096
    if 2 ^ 20 < npages then (none, k)
    else
      match k.kmalloc with
      | (false, k) => (none, k)
      | (true, k) =>
        (some (vmaInsertSorted set
          { start := start, end_ := end_, prot := prot, flags := flags,
            pages := replicate npages 0 }), k)

/-- `vma_split_at`: the flag is the return value. -/
def vmaSplitAt (k : Kernel) (set : VmaSet) (va : Nat) : Bool × VmaSet × Kernel :=
  if va % 4096 ≠ 0 then (false, set, k)
  else
    match vmaFind set va with
    | none => (true, set, k)
    | some v =>
      if v.start = va ∨ v.end_ = va then (true, set, k)
      else if vmaMaxPerTask ≤ set.length then (false, set, k)
      else
        match k.kmalloc with
        | (false, k) => (false, set, k)
        | (true, k) => (true, vmaInsertSorted (vmaModify set va (·.head va)) (v.tail va), k)

/-- The loop of `vma_merge_adjacent` from entry `a` on; a failed allocation skips past `a`. -/
def mergeFrom (k : Kernel) (a : Vma) : VmaSet → Nat × VmaSet × Kernel
  | [] => (0, [a], k)
  | b :: bs =>
    if a.Mergeable b then
      match k.kmalloc with
      | (false, k) =>
        let r := mergeFrom k b bs
        (r.1, a :: r.2.1, r.2.2)
      | (true, k) =>
        let r := mergeFrom k (a.weld b) bs
        (r.1 + 1, r.2)
    else
      let r := mergeFrom k b bs
      (r.1, a :: r.2.1, r.2.2)

/-- `vma_merge_adjacent`. -/
def vmaMergeAdjacent (k : Kernel) : VmaSet → Nat × VmaSet × Kernel
  | [] => (0, [], k)
  | a :: as => mergeFrom k a as

/-- The removal loop of `vma_unmap_range`: the number of pages released and what is left. -/
def releaseInside (k : Kernel) (start end_ : Nat) : VmaSet → Nat × VmaSet × Kernel
  | [] => (0, [], k)
  | v :: vs =>
    if start ≤ v.start ∧ v.end_ ≤ end_ then
      let r := releaseInside (k.pmmFreeList v.slots) start end_ vs
      (v.slots.length + r.1, r.2)
    else
      let r := releaseInside k start end_ vs
      (r.1, v :: r.2.1, r.2.2)

/-- `vma_unmap_range`; `none` is the return value `-1`, after which the set may have been cut. -/
def vmaUnmapRange (k : Kernel) (set : VmaSet) (start end_ : Nat) : Option Nat × VmaSet × Kernel :=
  if end_ ≤ start then (none, set, k)
  else
    match vmaSplitAt k set start with
    | (false, set, k) => (none, set, k)
    | (true, set, k) =>
      match vmaSplitAt k set end_ with
      | (false, set, k) => (none, set, k)
      | (true, set, k) =>
        let r := releaseInside k start end_ set
        (some r.1, (vmaMergeAdjacent r.2.2 r.2.1).2)

/-- The regions that lie inside `[start, end_)` get the new protection. -/
def protectInside (start end_ prot : Nat) (v : Vma) : Vma :=
  if start ≤ v.start ∧ v.end_ ≤ end_ then { v with prot := prot } else v

/-- `vma_protect_range`; `none` is the return value `-1`. -/
def vmaProtectRange (k : Kernel) (set : VmaSet) (start end_ prot : Nat) :
    Option Nat × VmaSet × Kernel :=
  if end_ ≤ start then (none, set, k)
  else
    match vmaSplitAt k set start with
    | (false, set, k) => (none, set, k)
    | (true, set, k) =>
      match vmaSplitAt k set end_ with
      | (false, set, k) => (none, set, k)
      | (true, set, k) =>
        (some (set.countP fun v => decide (start ≤ v.start ∧ v.end_ ≤ end_)),
          (vmaMergeAdjacent k (set.map (protectInside start end_ prot))).2)

/-- `vma_destroy`: every recorded page is freed. -/
def vmaDestroy (k : Kernel) (set : VmaSet) : Kernel := k.pmmFreeList (set.flatMap Vma.slots)

/-- The loop of `vma_clone` over the entries of the source that remain. When an array cannot be
allocated, `vma_destroy` is run on the entries copied so far, whose page pointers are the source's. -/
def vmaClone (k : Kernel) (dst : VmaSet) : VmaSet → Option VmaSet × Kernel
  | [] => (some dst, k)
  | v :: vs =>
    match k.kmalloc with
    | (false, k) => (none, vmaDestroy k dst)
    | (true, k) => vmaClone k (vmaInsertSorted dst { v with pages := v.pages.take v.npages }) vs

/-! ## Views of a set -/

/-- Regions as segments: the value at an address is its protection, flags and recorded page. -/
def vmaSeg : SegKind Vma (Nat × Nat × Nat) where
  lo := Vma.start
  hi := Vma.end_
  val := fun v va => (v.prot, v.flags, v.slot va)

/-- Shape of one region: page-aligned, non-empty, and the array reaches to its end. -/
structure VmaOk (v : Vma) : Prop where
  start_aligned : v.start % 4096 = 0
  end_aligned : v.end_ % 4096 = 0
  nonempty : v.start < v.end_
  array_len : v.npages ≤ v.pages.length

/-- The physical pages a set records. -/
def vmaSlots (set : VmaSet) : List Nat := set.flatMap Vma.slots

variable {k k' : Kernel} {set set' xs ys : VmaSet}

lemma vmaSlots_perm (h : xs.Perm ys) : (vmaSlots xs).Perm (vmaSlots ys) :=
  h.flatMap_right _

variable {end_ n start va : Nat} {r : Option Nat} {v : Vma}

lemma mem_slots_iff {x : Nat} : x ∈ v.slots ↔ x ≠ 0 ∧ ∃ i, i < v.npages ∧ v.pages[i]? = some x := by
  rw [Vma.slots, mem_filter, mem_iff_getElem?]
  simp only [getElem?_take]
  constructor
  · rintro ⟨⟨i, hi⟩, h0⟩
    split at hi
    · exact ⟨by simpa using h0, i, by assumption, hi⟩
    · cases hi
  · rintro ⟨h0, i, hi, hx⟩
    exact ⟨⟨i, by rw [if_pos hi, hx]⟩, by simpa using h0⟩

/-- A covered address with a recorded page names one of the slots. -/
lemma slot_mem_slots (hv : VmaOk v) (hc : vmaSeg.Covers v va) (h0 : v.slot va ≠ 0) :
    v.slot va ∈ v.slots := by
  refine mem_slots_iff.mpr ⟨h0, (va - v.start) / 4096, ?_, ?_⟩
  · have := hv.start_aligned
    have := hv.end_aligned
    simp only [SegKind.Covers, vmaSeg] at hc
    simp only [Vma.npages]
    omega
  unfold Vma.slot at *
  rw [getD_eq_getElem?_getD] at *
  cases hx : v.pages[(va - v.start) / 4096]? with
  | none => rw [hx] at h0; exact absurd rfl h0
  | some x => simp

/-! ## Cutting and welding regions -/

section
variable (hv : VmaOk v) (hal : va % 4096 = 0)
include hv hal

lemma npages_cut (hlo : v.start ≤ va) (hhi : va ≤ v.end_) :
    v.npages = (va - v.start) / 4096 + (v.end_ - va) / 4096 := by
  have := hv.start_aligned
  simp only [Vma.npages]
  omega

variable (hlo : v.start < va) (hhi : va < v.end_)
include hlo hhi

lemma vmaOk_head : VmaOk (v.head va) := by
  refine ⟨hv.start_aligned, hal, hlo, ?_⟩
  have hn := npages_cut hv hal hlo.le hhi.le
  have hlen := hv.array_len
  show (va - v.start) / 4096 ≤ v.pages.length
  omega

lemma vmaOk_tail : VmaOk (v.tail va) := by
  refine ⟨hal, hv.end_aligned, hhi, ?_⟩
  have hlen := hv.array_len
  simp only [Vma.tail, Vma.npages, length_take, length_drop] at *
  omega

/-- A region is the weld of its two halves. -/
lemma weld_head_tail : vmaSeg.Weld (v.head va) (v.tail va) v := by
  refine ⟨rfl, rfl, rfl, hlo.le, hhi.le, fun _ _ => rfl, fun p hp => ?_⟩
  have hst := hv.start_aligned
  have hen := hv.end_aligned
  simp only [SegKind.Covers, vmaSeg, Vma.tail] at hp
  -- the tail's index counts from the cut
  have hidx : (p - v.start) / 4096 = (va - v.start) / 4096 + (p - va) / 4096 := by omega
  have hlt : (p - va) / 4096 < (v.end_ - va) / 4096 := by omega
  simp only [vmaSeg, Vma.tail, Vma.slot, getD_eq_getElem?_getD, getElem?_take,
    getElem?_drop, hidx, if_pos hlt]

lemma slots_head_tail : v.slots = (v.head va).slots ++ (v.tail va).slots := by
  have hn := npages_cut hv hal hlo.le hhi.le
  simp only [Vma.slots, ← filter_append, hn]
  congr 1
  simp only [Vma.head, Vma.tail, Vma.npages, take_take, Nat.min_self]
  exact take_add

end

section
variable {a b : Vma} (ha : VmaOk a) (hb : VmaOk b) (hm : a.Mergeable b)
include ha hb hm

lemma npages_weld : (a.weld b).npages = a.npages + b.npages := by
  obtain ⟨h1, h2, h4, -⟩ := ha
  have h5 := hb.nonempty
  have h6 := hm.1
  simp only [Vma.npages, Vma.weld]
  omega

lemma vmaOk_weld : VmaOk (a.weld b) := by
  have h4 := ha.nonempty
  have h5 := hb.nonempty
  have h6 := hm.1
  refine ⟨ha.start_aligned, hb.end_aligned, by simp only [Vma.weld]; omega, ?_⟩
  rw [npages_weld ha hb hm]
  simp only [Vma.weld, length_append, length_take]
  have := ha.array_len
  have := hb.array_len
  omega

/-- Welding neighbours keeps every recorded page at its address. -/
lemma weld_weld : vmaSeg.Weld a b (a.weld b) := by
  have h1 := ha.start_aligned
  have h2 := ha.end_aligned
  have hla := ha.array_len
  have hmid := hm.1
  have hlen : (a.pages.take a.npages).length = a.npages := by
    rw [length_take]
    omega
  refine ⟨rfl, hmid, rfl, ha.nonempty.le, hb.nonempty.le, fun p hp => ?_, fun p hp => ?_⟩
  · simp only [SegKind.Covers, vmaSeg] at hp
    have hlt : (p - a.start) / 4096 < a.npages := by
      simp only [Vma.npages]
      omega
    simp only [vmaSeg, Vma.weld, Vma.slot, getD_eq_getElem?_getD]
    rw [getElem?_append_left (by omega), getElem?_take, if_pos hlt]
  simp only [SegKind.Covers, vmaSeg] at hp
  have hen := hb.end_aligned
  have hn : a.npages = (a.end_ - a.start) / 4096 := rfl
  have hlt : (p - b.start) / 4096 < b.npages := by
    simp only [Vma.npages]
    omega
  have hidx : (p - a.start) / 4096 = a.npages + (p - b.start) / 4096 := by
    have := ha.nonempty
    omega
  simp only [vmaSeg, Vma.weld, Vma.slot, getD_eq_getElem?_getD, hm.2.1, hm.2.2]
  rw [hidx, getElem?_append_right (by omega), hlen, Nat.add_sub_cancel_left, getElem?_take, if_pos hlt]

lemma slots_weld : (a.weld b).slots = a.slots ++ b.slots := by
  have hlen : (a.pages.take a.npages ++ b.pages.take b.npages).length = a.npages + b.npages := by
    have := ha.array_len
    have := hb.array_len
    simp only [length_append, length_take]
    omega
  simp only [Vma.slots, npages_weld ha hb hm, ← filter_append]
  congr 1
  show take _ (a.pages.take a.npages ++ b.pages.take b.npages) = _
  rw [← hlen, take_length]

end

/-! ## Inserting and modifying -/

lemma insertBack_perm (v : Vma) (es : VmaSet) : (insertBack v es).Perm (v :: es) := by
  induction es with
  | nil => exact List.Perm.refl _
  | cons e es ih =>
    rw [insertBack]
    split
    · exact (ih.cons e).trans (List.Perm.swap _ _ _)
    · exact List.Perm.refl _

lemma vmaInsertSorted_perm (set : VmaSet) (v : Vma) : (vmaInsertSorted set v).Perm (v :: set) :=
  (reverse_perm _).trans
    ((insertBack_perm v set.reverse).trans ((reverse_perm set).cons v))

lemma insertBack_sorted {es : VmaSet} (h : es.Pairwise fun a b => b.start ≤ a.start) :
    (insertBack v es).Pairwise fun a b => b.start ≤ a.start := by
  induction es with
  | nil => simp [insertBack]
  | cons e es ih =>
    obtain ⟨he, hes⟩ := pairwise_cons.mp h
    rw [insertBack]
    split_ifs with hlt
    · refine pairwise_cons.mpr ⟨fun x hx => ?_, ih hes⟩
      rcases mem_cons.mp ((insertBack_perm v es).mem_iff.mp hx) with rfl | hx
      · exact hlt.le
      · exact he x hx
    refine pairwise_cons.mpr ⟨fun x hx => ?_, h⟩
    rcases mem_cons.mp hx with rfl | hx
    · omega
    · have := he x hx
      omega

lemma vmaInsertSorted_sorted (v : Vma) (h : set.Pairwise fun a b => a.start ≤ b.start) :
    (vmaInsertSorted set v).Pairwise fun a b => a.start ≤ b.start := by
  rw [vmaInsertSorted, pairwise_reverse]
  exact insertBack_sorted (pairwise_reverse.mpr (by simpa using h))

/-- The set around the region `vma_find` returns, and what an assignment through it does. -/
lemma vmaModify_split (h : vmaFind set va = some v) :
    ∃ l r, set = l ++ v :: r ∧ vmaSeg.Covers v va ∧ ∀ f, vmaModify set va f = l ++ f v :: r := by
  obtain ⟨l, r, rfl, hl, hv⟩ := vmaSeg.find_split h
  refine ⟨l, r, rfl, hv, fun f => ?_⟩
  clear h
  induction l with
  | nil =>
    have hv' : v.start ≤ va ∧ va < v.end_ := hv
    simp [vmaModify, hv']
  | cons a l ih =>
    have ha : ¬ (a.start ≤ va ∧ va < a.end_) := hl a (by simp)
    simp only [cons_append, vmaModify, if_neg ha]
    rw [ih fun x hx => hl x (by simp [hx])]

/-! ## Heap allocations

The set operations allocate arrays with `kmalloc`, whose growth may take pages but never gives any
back. -/

/-- A step that only allocates from the kernel heap. -/
def HeapStep (k k' : Kernel) : Prop :=
  Kernel.PmmStep k k' ∧ Kernel.Grown k k' []

lemma HeapStep.refl (k : Kernel) : HeapStep k k := ⟨.refl k, .refl k⟩

lemma HeapStep.trans {k'' : Kernel} (h : HeapStep k k') (h' : HeapStep k' k'') : HeapStep k k'' :=
  ⟨h.1.trans h'.1, h.2.trans h'.2⟩

lemma heapStep_kmalloc {b : Bool} (h : k.kmalloc = (b, k')) : HeapStep k k' :=
  Kernel.kmalloc_grown h

lemma HeapStep.owns (h : HeapStep k k') {F : List Nat} (hF : k.Owns F) : k'.Owns F :=
  h.2.owns hF

lemma HeapStep.frame (h : HeapStep k k') : k'.frame = k.frame := by
  obtain ⟨⟨p, gs, -, rfl⟩, -⟩ := h
  rfl

lemma HeapStep.tables (h : HeapStep k k') : k'.tables = k.tables := by
  obtain ⟨⟨p, gs, -, rfl⟩, -⟩ := h
  rfl

/-! ## Splitting -/

/-- Some region reaches across `va`. -/
def Straddles (set : VmaSet) (va : Nat) : Prop := ∃ v ∈ set, v.start < va ∧ va < v.end_

/-- One region of `set` is replaced by its two halves; the head keeps its place and the tail is
inserted by its start. -/
def CutAt (va : Nat) (set set' : VmaSet) : Prop :=
  ∃ v rest, set.Perm (v :: rest) ∧ set'.Perm (v.head va :: v.tail va :: rest) ∧
    v.start < va ∧ va < v.end_ ∧
    ((set.Pairwise fun a b => a.start ≤ b.start) → set'.Pairwise fun a b => a.start ≤ b.start)

/-- A region may be replaced by one that starts where it starts. -/
lemma sorted_replace {l r : VmaSet} {w : Vma} (hs : w.start = v.start)
    (h : (l ++ v :: r).Pairwise fun a b => a.start ≤ b.start) :
    (l ++ w :: r).Pairwise fun a b => a.start ≤ b.start := by
  have hmap : (l ++ w :: r).map Vma.start = (l ++ v :: r).map Vma.start := by simp [hs]
  exact pairwise_map.mp (hmap ▸ pairwise_map.mpr h)

lemma cutAt_found (hfind : vmaFind set va = some v) (hne : v.start ≠ va) :
    CutAt va set (vmaInsertSorted (vmaModify set va (·.head va)) (v.tail va)) := by
  obtain ⟨l, r, rfl, ⟨hlo, hhi⟩, hmod⟩ := vmaModify_split hfind
  rw [hmod]
  refine ⟨v, l ++ r, perm_middle, ?_, lt_of_le_of_ne hlo hne, hhi, fun hs => ?_⟩
  · refine (vmaInsertSorted_perm _ _).trans ?_
    refine (List.Perm.cons _ (perm_middle : (l ++ _ :: r).Perm _)).trans ?_
    exact List.Perm.swap _ _ _
  exact vmaInsertSorted_sorted _ (sorted_replace (v := v) rfl hs)

/-- **Split**: the call is refused, there is nothing to cut, or one region is cut in two. -/
lemma vmaSplitAt_cases {ok : Bool} (h : vmaSplitAt k set va = (ok, set', k')) : HeapStep k k' ∧
      ((ok = false ∧ set' = set ∧ (va % 4096 ≠ 0 ∨
          Straddles set va ∧ (vmaMaxPerTask ≤ set.length ∨ k.kmalloc.1 = false))) ∨
        (ok = true ∧ va % 4096 = 0 ∧ ((set' = set ∧ ∀ v, vmaFind set va = some v → v.start = va) ∨
          (k.kmalloc = (true, k') ∧ set.length < vmaMaxPerTask ∧ CutAt va set set')))) := by
  unfold vmaSplitAt at h
  split at h
  · rename_i hal
    cases h
    exact ⟨.refl _, .inl ⟨rfl, rfl, .inl hal⟩⟩
  rename_i hal
  have hal := not_not.mp hal
  split at h
  · rename_i hnone
    cases h
    exact ⟨.refl _, .inr ⟨rfl, hal, .inl ⟨rfl, by simp [hnone]⟩⟩⟩
  rename_i v hfind
  obtain ⟨hv, hlo, hhi⟩ := vmaSeg.find_some hfind
  simp only [vmaSeg] at hlo hhi
  split at h
  · rename_i hend
    cases h
    refine ⟨.refl _, .inr ⟨rfl, hal, .inl ⟨rfl, fun w hw => ?_⟩⟩⟩
    cases hfind.symm.trans hw
    omega
  rename_i hne
  have hcross : Straddles set va := ⟨v, hv, by omega, hhi⟩
  split at h
  · rename_i hfull
    cases h
    exact ⟨.refl _, .inl ⟨rfl, rfl, .inr ⟨hcross, .inl hfull⟩⟩⟩
  rename_i hroom
  split at h
  · rename_i k1 hk
    cases h
    exact ⟨heapStep_kmalloc hk, .inl ⟨rfl, rfl, .inr ⟨hcross, .inr (by rw [hk])⟩⟩⟩
  · rename_i k1 hk
    cases h
    exact ⟨heapStep_kmalloc hk, .inr ⟨rfl, hal, .inr ⟨hk, not_le.mp hroom,
      cutAt_found hfind fun he => hne (.inl he)⟩⟩⟩

/-! ## Sets cut differently

Splitting and merging both leave what a set records alone. `Recut` collects that, so that callers
need not know which of the two happened, nor how often. -/

/-- Every region of the set has the right shape. -/
def AllOk (set : VmaSet) : Prop := ∀ v ∈ set, VmaOk v

lemma AllOk.perm (h : AllOk xs) (hp : xs.Perm ys) : AllOk ys :=
  fun v hv => h v (hp.mem_iff.mpr hv)

lemma allOk_cons {vs : VmaSet} : AllOk (v :: vs) ↔ VmaOk v ∧ AllOk vs := by
  simp [AllOk]

/-- A well-formed set. -/
structure VmaWf (set : VmaSet) : Prop where
  count : set.length ≤ vmaMaxPerTask
  sorted : set.Pairwise fun a b => a.start ≤ b.start
  ok : AllOk set
  apart : vmaSeg.Apart set

/-- `ys` records what `xs` records. -/
structure Recut (xs ys : VmaSet) : Prop where
  ok : AllOk xs → AllOk ys
  holds : AllOk xs → ∀ p g, vmaSeg.Holds ys p g ↔ vmaSeg.Holds xs p g
  slots : AllOk xs → (vmaSlots ys).Perm (vmaSlots xs)
  wf : VmaWf xs → VmaWf ys

lemma Recut.refl (xs : VmaSet) : Recut xs xs :=
  ⟨id, fun _ _ _ => Iff.rfl, fun _ => List.Perm.refl _, id⟩

lemma Recut.trans {zs : VmaSet} (h : Recut xs ys) (h' : Recut ys zs) : Recut xs zs :=
  ⟨fun hx => h'.ok (h.ok hx), fun hx p g => (h'.holds (h.ok hx) p g).trans (h.holds hx p g),
    fun hx => (h'.slots (h.ok hx)).trans (h.slots hx), fun hx => h'.wf (h.wf hx)⟩

lemma vmaSlots_cons (v : Vma) (vs : VmaSet) : vmaSlots (v :: vs) = v.slots ++ vmaSlots vs := rfl

lemma CutAt.recut (h : CutAt va set set') (hal : va % 4096 = 0)
    (hroom : set.length < vmaMaxPerTask) : Recut set set' := by
  obtain ⟨v, rest, hp, hp', hlo, hhi, hsort⟩ := h
  have hv : AllOk set → VmaOk v := fun hok => hok v (hp.mem_iff.mpr (by simp))
  have hok : AllOk set → AllOk set' := by
    intro hok
    refine AllOk.perm ?_ hp'.symm
    rw [allOk_cons, allOk_cons]
    exact ⟨vmaOk_head (hv hok) hal hlo hhi, vmaOk_tail (hv hok) hal hlo hhi,
      (allOk_cons.mp (hok.perm hp)).2⟩
  refine ⟨hok, fun hok p g => ?_, fun hok => ?_, fun hwf => ?_⟩
  · rw [vmaSeg.holds_perm hp', vmaSeg.holds_perm hp]
    exact (weld_head_tail (hv hok) hal hlo hhi).holds _ rest p g
  · refine (vmaSlots_perm hp').trans (List.Perm.trans ?_ (vmaSlots_perm hp).symm)
    rw [vmaSlots_cons, vmaSlots_cons, vmaSlots_cons, slots_head_tail (hv hok) hal hlo hhi, append_assoc]
  refine ⟨?_, hsort hwf.sorted, hok hwf.ok, ?_⟩
  · have h1 := hp.length_eq
    have h2 := hp'.length_eq
    simp only [length_cons] at h1 h2
    omega
  · refine SegKind.Apart.perm _ ?_ hp'.symm
    exact (weld_head_tail (hv hwf.ok) hal hlo hhi).apart _ (SegKind.Apart.perm _ hwf.apart hp)

/-- **Splitting** leaves what the set records alone. -/
lemma vmaSplitAt_recut {b : Bool} (h : vmaSplitAt k set va = (b, set', k')) : Recut set set' := by
  obtain ⟨-, ⟨-, rfl, -⟩ | ⟨-, hal, ⟨rfl, -⟩ | ⟨-, hroom, hcut⟩⟩⟩ := vmaSplitAt_cases h
  · exact .refl set'
  · exact .refl set'
  · exact hcut.recut hal hroom

/-- After a successful split of a well-formed set no region reaches over the cut. -/
lemma no_straddle (h : vmaSplitAt k set va = (true, set', k')) (hwf : VmaWf set) :
    ¬ Straddles set' va := by
  rintro ⟨w, hw, hlo, hhi⟩
  have hcov : vmaSeg.Covers w va := ⟨hlo.le, hhi⟩
  have hwf' := (vmaSplitAt_recut h).wf hwf
  obtain ⟨-, ⟨⟨⟩, -⟩ | ⟨-, -, ⟨rfl, hfind⟩ | ⟨-, -, v, rest, -, hp', -, hhi, -⟩⟩⟩ := vmaSplitAt_cases h
  · -- the cut fell into a hole, or on the start of the region that covers it
    cases hf : vmaFind set' va with
    | none => exact vmaSeg.find_none hf w hw hcov
    | some v =>
      obtain ⟨hv, hcv⟩ := vmaSeg.find_some hf
      obtain rfl := hwf.apart.unique _ hw hv hcov hcv
      exact hlo.ne (hfind w hf)
  · -- the tail covers the cut, so `w` is the tail, which starts there
    have ht : v.tail va ∈ set' := hp'.mem_iff.mpr (by simp)
    obtain rfl := hwf'.apart.unique _ hw ht hcov ⟨le_refl _, hhi⟩
    exact hlo.ne rfl

/-! ## Merging -/

/-- `ys` comes from `xs` by welding some neighbours, in order. -/
inductive Merged : VmaSet → VmaSet → Prop
  | nil : Merged [] []
  | keep {a : Vma} {xs ys : VmaSet} : Merged xs ys → Merged (a :: xs) (a :: ys)
  | weld {a b : Vma} {xs ys : VmaSet} :
      a.Mergeable b → Merged (a.weld b :: xs) ys → Merged (a :: b :: xs) ys

lemma mergeFrom_merged {a : Vma} {bs : VmaSet} (h : mergeFrom k a bs = (n, set', k')) :
    HeapStep k k' ∧ Merged (a :: bs) set' := by
  induction bs generalizing k a n set' with
  | nil =>
    cases h
    exact ⟨.refl _, .keep .nil⟩
  | cons b bs ih =>
    rw [mergeFrom] at h
    split_ifs at h with hm
    · split at h
      · -- the array could not be allocated: skip past `a`
        rename_i k1 hk
        cases h
        obtain ⟨hs, hmerge⟩ := ih rfl
        exact ⟨(heapStep_kmalloc hk).trans hs, .keep hmerge⟩
      rename_i k1 hk
      rcases hr : mergeFrom k1 (a.weld b) bs with ⟨m, ys, k2⟩
      rw [hr] at h
      cases h
      obtain ⟨hs, hmerge⟩ := ih hr
      exact ⟨(heapStep_kmalloc hk).trans hs, .weld hm hmerge⟩
    · cases h
      obtain ⟨hs, hmerge⟩ := ih rfl
      exact ⟨hs, .keep hmerge⟩

lemma vmaMergeAdjacent_merged (h : vmaMergeAdjacent k set = (n, set', k')) :
    HeapStep k k' ∧ Merged set set' := by
  cases set with
  | nil =>
    cases h
    exact ⟨.refl _, .nil⟩
  | cons a as => exact mergeFrom_merged h

section
variable (h : Merged xs ys)
include h

lemma Merged.ok (hok : AllOk xs) : AllOk ys := by
  induction h with
  | nil => exact hok
  | keep _ ih =>
    obtain ⟨ha, hxs⟩ := allOk_cons.mp hok
    exact allOk_cons.mpr ⟨ha, ih hxs⟩
  | weld hm _ ih =>
    obtain ⟨ha, hbx⟩ := allOk_cons.mp hok
    obtain ⟨hb, hx⟩ := allOk_cons.mp hbx
    exact ih (allOk_cons.mpr ⟨vmaOk_weld ha hb hm, hx⟩)

lemma Merged.holds (hok : AllOk xs) (p : Nat) (g : Nat × Nat × Nat) :
    vmaSeg.Holds ys p g ↔ vmaSeg.Holds xs p g := by
  induction h with
  | nil => exact Iff.rfl
  | keep _ ih =>
    rw [vmaSeg.holds_cons, vmaSeg.holds_cons, ih (allOk_cons.mp hok).2]
  | weld hm _ ih =>
    obtain ⟨ha, hbx⟩ := allOk_cons.mp hok
    obtain ⟨hb, hx⟩ := allOk_cons.mp hbx
    rw [ih (allOk_cons.mpr ⟨vmaOk_weld ha hb hm, hx⟩)]
    exact ((weld_weld ha hb hm).holds _ _ p g).symm

lemma Merged.slots (hok : AllOk xs) : vmaSlots ys = vmaSlots xs := by
  induction h with
  | nil => rfl
  | keep _ ih => rw [vmaSlots_cons, vmaSlots_cons, ih (allOk_cons.mp hok).2]
  | weld hm _ ih =>
    obtain ⟨ha, hbx⟩ := allOk_cons.mp hok
    obtain ⟨hb, hx⟩ := allOk_cons.mp hbx
    rw [ih (allOk_cons.mpr ⟨vmaOk_weld ha hb hm, hx⟩), vmaSlots_cons, vmaSlots_cons,
      vmaSlots_cons, slots_weld ha hb hm, append_assoc]

lemma Merged.length_le : ys.length ≤ xs.length := by
  induction h with
  | nil => exact le_refl _
  | keep _ ih => simpa using ih
  | weld _ _ ih =>
    simp only [length_cons] at ih ⊢
    omega

lemma Merged.start_mem {y : Vma} (hy : y ∈ ys) : ∃ x ∈ xs, x.start = y.start := by
  induction h with
  | nil => cases hy
  | @keep a xs ys _ ih =>
    rcases mem_cons.mp hy with rfl | hy
    · exact ⟨y, by simp, rfl⟩
    · obtain ⟨x, hx, he⟩ := ih hy
      exact ⟨x, by simp [hx], he⟩
  | @weld a b xs ys _ _ ih =>
    obtain ⟨x, hx, he⟩ := ih hy
    rcases mem_cons.mp hx with rfl | hx
    · exact ⟨a, by simp, he⟩
    · exact ⟨x, by simp [hx], he⟩

end

/-- Entries one behind the other. On non-empty regions this is sortedness with apartness. -/
def Ordered (set : VmaSet) : Prop := set.Pairwise fun a b => a.end_ ≤ b.start

lemma VmaWf.ordered (h : VmaWf set) : Ordered set := by
  refine (h.sorted.and h.apart).imp_of_mem ?_
  rintro a b ha hb ⟨hs, hd⟩
  have hb' := (h.ok b hb).nonempty
  rcases hd with hd | hd
  · exact hd
  · simp only [vmaSeg] at hd
    omega

lemma VmaWf.of_ordered (hc : set.length ≤ vmaMaxPerTask) (hok : AllOk set) (ho : Ordered set) :
    VmaWf set := by
  refine ⟨hc, ho.imp_of_mem ?_, hok, ho.imp fun h => .inl h⟩
  intro a b ha _ h
  have := (hok a ha).nonempty
  omega

lemma Merged.ordered (h : Merged xs ys) (ho : Ordered xs) : Ordered ys := by
  induction h with
  | nil => exact ho
  | keep hm ih =>
    obtain ⟨ha, hxs⟩ := pairwise_cons.mp ho
    refine pairwise_cons.mpr ⟨fun y hy => ?_, ih hxs⟩
    obtain ⟨x, hx, he⟩ := hm.start_mem hy
    exact he ▸ ha x hx
  | weld hm _ ih =>
    -- the weld ends where its second part did
    obtain ⟨-, hbx⟩ := pairwise_cons.mp ho
    obtain ⟨hb, hx⟩ := pairwise_cons.mp hbx
    exact ih (pairwise_cons.mpr ⟨fun x hx => hb x hx, hx⟩)

/-- **Merging** leaves what the set records alone. -/
lemma Merged.recut (h : Merged xs ys) : Recut xs ys :=
  ⟨h.ok, h.holds, fun hok => by rw [h.slots hok], fun hwf =>
    .of_ordered (h.length_le.trans hwf.count) (h.ok hwf.ok) (h.ordered hwf.ordered)⟩

/-! ## Unmapping and re-protecting -/

/-- The region lies inside the range. -/
def Inside (start end_ : Nat) (v : Vma) : Prop := start ≤ v.start ∧ v.end_ ≤ end_
deriving Decidable

/-- The removal loop keeps the regions outside and frees the pages of those inside, in order. -/
lemma releaseInside_eq (k : Kernel) (start end_ : Nat) (set : VmaSet) : releaseInside k start end_ set =
      ((vmaSlots (set.filter fun v => decide (Inside start end_ v))).length,
        set.filter (fun v => decide (¬ Inside start end_ v)),
        k.pmmFreeList (vmaSlots (set.filter fun v => decide (Inside start end_ v)))) := by
  induction set generalizing k with
  | nil => rfl
  | cons v vs ih =>
    rw [releaseInside]
    by_cases hv : Inside start end_ v
    · rw [if_pos (show start ≤ v.start ∧ v.end_ ≤ end_ from hv), ih]
      simp only [filter_cons, hv, decide_true, not_true_eq_false, decide_false, if_true,
        vmaSlots_cons, length_append, Kernel.pmmFreeList, Pmm.freeList_append]
      rfl
    · rw [if_neg (show ¬ (start ≤ v.start ∧ v.end_ ≤ end_) from hv), ih]
      simp only [filter_cons, hv, decide_false, not_false_eq_true, decide_true, if_true]
      rfl

/-- The beginning that `vma_unmap_range` and `vma_protect_range` share: the checks and the two cuts. -/
def cutRange (k : Kernel) (set : VmaSet) (start end_ : Nat) : Bool × VmaSet × Kernel :=
  if end_ ≤ start then (false, set, k)
  else
    match vmaSplitAt k set start with
    | (false, set, k) => (false, set, k)
    | (true, set, k) => vmaSplitAt k set end_

lemma vmaUnmapRange_eq (k : Kernel) (set : VmaSet) (start end_ : Nat) : vmaUnmapRange k set start end_ =
      match cutRange k set start end_ with
      | (false, set, k) => (none, set, k)
      | (true, set, k) =>
        let r := releaseInside k start end_ set
        (some r.1, (vmaMergeAdjacent r.2.2 r.2.1).2) := by
  unfold vmaUnmapRange cutRange
  split
  · rfl
  · rcases vmaSplitAt k set start with ⟨_ | _, set1, k1⟩
    · rfl
    · rfl

lemma vmaProtectRange_eq (k : Kernel) (set : VmaSet) (start end_ prot : Nat) :
    vmaProtectRange k set start end_ prot =
      match cutRange k set start end_ with
      | (false, set, k) => (none, set, k)
      | (true, set, k) =>
        (some (set.countP fun v => decide (start ≤ v.start ∧ v.end_ ≤ end_)),
          (vmaMergeAdjacent k (set.map (protectInside start end_ prot))).2) := by
  unfold vmaProtectRange cutRange
  split
  · rfl
  · rcases vmaSplitAt k set start with ⟨_ | _, set1, k1⟩
    · rfl
    · rfl

lemma cutRange_recut {ok : Bool} (h : cutRange k set start end_ = (ok, set', k')) :
    HeapStep k k' ∧ Recut set set' := by
  unfold cutRange at h
  split at h
  · cases h
    exact ⟨.refl _, .refl _⟩
  split at h
  · rename_i h0
    cases h
    exact ⟨(vmaSplitAt_cases h0).1, vmaSplitAt_recut h0⟩
  · rename_i h0
    exact ⟨(vmaSplitAt_cases h0).1.trans (vmaSplitAt_cases h).1,
      (vmaSplitAt_recut h0).trans (vmaSplitAt_recut h)⟩

/-- **Unmap** in three phases: cut at both ends, release the regions inside, merge. On failure only
cuts have happened. -/
lemma vmaUnmapRange_cases (h : vmaUnmapRange k set start end_ = (r, set', k')) :
    (r = none ∧ HeapStep k k' ∧ Recut set set') ∨
      ∃ k1 set1, HeapStep k k1 ∧ Recut set set1 ∧ cutRange k set start end_ = (true, set1, k1) ∧
        r = some (vmaSlots (set1.filter fun v => decide (Inside start end_ v))).length ∧
        HeapStep
          (k1.pmmFreeList (vmaSlots (set1.filter fun v => decide (Inside start end_ v)))) k' ∧
        Merged (set1.filter fun v => decide (¬ Inside start end_ v)) set' := by
  rw [vmaUnmapRange_eq] at h
  split at h
  · rename_i hcut
    cases h
    exact .inl ⟨rfl, cutRange_recut hcut⟩
  rename_i set1 k1 hcut
  obtain ⟨hs, hre⟩ := cutRange_recut hcut
  simp only [releaseInside_eq] at h
  cases hm : vmaMergeAdjacent (k1.pmmFreeList (vmaSlots (set1.filter fun v =>
      decide (Inside start end_ v)))) (set1.filter fun v => decide (¬ Inside start end_ v))
    with
  | mk n p =>
    rw [hm] at h
    cases h
    exact .inr ⟨k1, set1, hs, hre, hcut, rfl, vmaMergeAdjacent_merged hm⟩

/-- **Re-protect** in three phases: cut at both ends, set the protection inside, merge. -/
lemma vmaProtectRange_cases {prot : Nat} (h : vmaProtectRange k set start end_ prot = (r, set', k')) :
    HeapStep k k' ∧ ((r = none ∧ Recut set set') ∨
      ∃ k1 set1, Recut set set1 ∧ cutRange k set start end_ = (true, set1, k1) ∧
        r = some (set1.countP fun v => decide (Inside start end_ v)) ∧
        Merged (set1.map (protectInside start end_ prot)) set') := by
  rw [vmaProtectRange_eq] at h
  split at h
  · rename_i hcut
    cases h
    obtain ⟨hs, hre⟩ := cutRange_recut hcut
    exact ⟨hs, .inl ⟨rfl, hre⟩⟩
  rename_i set1 k1 hcut
  obtain ⟨hs, hre⟩ := cutRange_recut hcut
  rcases hm : vmaMergeAdjacent k1 (set1.map (protectInside start end_ prot)) with
    ⟨n, set2, k2⟩
  rw [hm] at h
  cases h
  obtain ⟨hh, hmerge⟩ := vmaMergeAdjacent_merged hm
  exact ⟨hs.trans hh, .inr ⟨k1, set1, hre, hcut, rfl, hmerge⟩⟩

/-! ## Copied records -/

/-- A record as `vma_clone` copies it: the array is cut to the range. -/
def Vma.trim (v : Vma) : Vma := { v with pages := v.pages.take v.npages }

lemma vmaOk_trim (h : VmaOk v) : VmaOk v.trim := by
  refine ⟨h.start_aligned, h.end_aligned, h.nonempty, ?_⟩
  show v.npages ≤ (v.pages.take v.npages).length
  rw [length_take]
  exact le_min (le_refl _) h.array_len

lemma trim_take (v : Vma) : v.trim.pages.take v.trim.npages = v.pages.take v.npages := by
  show (v.pages.take v.npages).take v.npages = _
  rw [take_take, Nat.min_self]

lemma slots_trim (v : Vma) : v.trim.slots = v.slots := by
  rw [Vma.slots, trim_take, Vma.slots]

end FermiOs
