import FermiOs.Mm.Vma

/-!
# Set operations that fail

What `vma_unmap_range`, `vma_protect_range` and `vma_clone` leave behind when they report failure.

The first two cut the set at both ends of the range before anything else. A cut that fails leaves its
set alone, so the set can only change when the first cut was made and the second was refused; `Torn`
says in terms of the state before the call when that happens.

`vma_clone` copies the records with their page pointers. When an array cannot be allocated it runs
`vma_destroy` on the copies, which frees the pages the source still records.
-/

namespace FermiOs
open Library List

/-! ## Cutting at one address -/

lemma straddles_perm {xs ys : VmaSet} (hp : xs.Perm ys) (va : Nat) :
    Straddles xs va ↔ Straddles ys va := by
  constructor
  · rintro ⟨v, hv, h⟩
    exact ⟨v, hp.mem_iff.mp hv, h⟩
  · rintro ⟨v, hv, h⟩
    exact ⟨v, hp.mem_iff.mpr hv, h⟩

variable {end_ n start : Nat} {k k' : Kernel} {rest : List Nat} {set set' src : VmaSet}

/-- A cut adds one region, and changes nothing else about which addresses lie strictly inside a
region. -/
lemma CutAt.straddles {va : Nat} (h : CutAt va set set') :
    Straddles set va ∧ set'.length = set.length + 1 ∧
      ∀ w, w ≠ va → (Straddles set' w ↔ Straddles set w) := by
  obtain ⟨v, rest, hp, hp', hlo, hhi, -⟩ := h
  refine ⟨⟨v, hp.mem_iff.mpr (by simp), hlo, hhi⟩, ?_, fun w hw => ?_⟩
  · rw [hp.length_eq, hp'.length_eq]
    rfl
  rw [straddles_perm hp', straddles_perm hp]
  simp only [Straddles, exists_mem_cons_iff, Vma.tail, Vma.head]
  -- an address other than the cut lies strictly inside the region iff inside one half
  constructor
  · rintro (h | h | h)
    · exact .inl ⟨h.1, by omega⟩
    · exact .inl ⟨by omega, h.2⟩
    · exact .inr h
  rintro (h | h)
  · rcases lt_or_gt_of_ne hw with hlt | hgt
    · exact .inl ⟨h.1, hlt⟩
    · exact .inr (.inl ⟨hgt, h.2⟩)
  · exact .inr (.inr h)

/-! ## Cutting a range at both ends -/

lemma vmaUnmapRange_none_iff : vmaUnmapRange k set start end_ = (none, set', k') ↔
      cutRange k set start end_ = (false, set', k') := by
  rw [vmaUnmapRange_eq]
  rcases cutRange k set start end_ with ⟨_ | _, set1, k1⟩ <;> simp

lemma vmaProtectRange_none_iff {prot : Nat} : vmaProtectRange k set start end_ prot = (none, set', k') ↔
      cutRange k set start end_ = (false, set', k') := by
  rw [vmaProtectRange_eq]
  rcases cutRange k set start end_ with ⟨_ | _, set1, k1⟩ <;> simp

/-- The start of the range lies strictly inside a region and can be cut, and the end cannot: it is
not page-aligned, or lies strictly inside a region too and the first cut took the last entry of the
table, or the second array cannot be allocated. -/
structure Torn (k : Kernel) (set : VmaSet) (start end_ : Nat) : Prop where
  range : start < end_
  aligned : start % 4096 = 0
  inside : Straddles set start
  room : set.length < vmaMaxPerTask
  array : k.kmalloc.1 = true
  refused : end_ % 4096 ≠ 0 ∨ (Straddles set end_ ∧
    (vmaMaxPerTask ≤ set.length + 1 ∨ k.kmalloc.2.kmalloc.1 = false))

section

/-- Failure of the two cuts keeps the set exactly when the range is not torn. -/
lemma cutRange_keeps_iff (hwf : VmaWf set) :
    (∀ set' k', cutRange k set start end_ = (false, set', k') → set' = set) ↔
      ¬ Torn k set start end_ := by
  unfold cutRange
  split_ifs with hrange
  · exact iff_of_true (fun _ _ h => by cases h; rfl) fun h => absurd h.range (not_lt.mpr hrange)
  have hrange := not_le.mp hrange
  rcases h1 : vmaSplitAt k set start with ⟨b, set1, k1⟩
  obtain ⟨-, ⟨rfl, rfl, hno⟩ | ⟨rfl, hal, hfirst⟩⟩ := vmaSplitAt_cases h1
  · -- the first cut was refused
    refine iff_of_true (fun _ _ h => by cases h; rfl) fun h => ?_
    rcases hno with hno | ⟨-, hno | hno⟩
    · exact hno h.aligned
    · exact absurd h.room (not_lt.mpr hno)
    · exact absurd (hno.symm.trans h.array) (by decide)
  dsimp only
  rcases h2 : vmaSplitAt k1 set1 end_ with ⟨c, set2, k2⟩
  have hsecond := (vmaSplitAt_cases h2).2
  rcases hfirst with ⟨rfl, -⟩ | ⟨hk, hroom, hcut⟩
  · -- nothing was cut at the start
    refine iff_of_true (fun set' k' h => ?_) fun h => no_straddle h1 hwf h.inside
    obtain ⟨-, rfl, -⟩ | ⟨rfl, -⟩ := hsecond
    · cases h
      rfl
    · cases h
  obtain ⟨hs, hlen, hstr⟩ := hcut.straddles
  have hstr := hstr end_ hrange.ne'
  obtain ⟨rfl, rfl, hno⟩ | ⟨rfl, hal2, hno⟩ := hsecond
  · rw [hstr, hlen] at hno
    refine iff_of_false (fun h => ?_) (not_not.mpr ⟨hrange, hal, hs, hroom, by rw [hk], ?_⟩)
    · have := congrArg length (h _ _ rfl)
      omega
    · rw [hk]
      exact hno
  refine iff_of_true (fun _ _ h => by cases h) fun h => ?_
  obtain ⟨hs2, hr⟩ := h.refused.resolve_left (not_not.mpr hal2)
  rw [hk] at hr
  rcases hno with ⟨rfl, -⟩ | ⟨hk2, hroom2, -⟩
  · exact no_straddle h2 ((vmaSplitAt_recut h1).wf hwf) (hstr.mpr hs2)
  · rw [hlen] at hroom2
    rw [hk2] at hr
    exact hr.elim (not_le.mpr hroom2) nofun

/-- **Failed range operations**: when `vma_unmap_range` or `vma_protect_range` fails, the set is as it
was exactly when the range was not torn. -/
theorem range_failure_keeps_iff (hwf : VmaWf set) (prot : Nat) :
    ((∀ set' k', vmaUnmapRange k set start end_ = (none, set', k') → set' = set) ↔
      ¬ Torn k set start end_) ∧
    ((∀ set' k', vmaProtectRange k set start end_ prot = (none, set', k') → set' = set) ↔
      ¬ Torn k set start end_) := by
  simp only [vmaUnmapRange_none_iff, vmaProtectRange_none_iff]
  exact ⟨cutRange_keeps_iff hwf, cutRange_keeps_iff hwf⟩

end

/-- One region of three pages in each of the first 31 slots of 16 KiB. -/
def crowdedSet : VmaSet :=
  (range 31).map fun i =>
    { start := i * 16384, end_ := i * 16384 + 12288, prot := 3, flags := 1, pages := [0, 0, 0] }

lemma crowdedSet_wf : VmaWf crowdedSet := by
  refine .of_ordered (by decide) ?_ ?_
  · intro v hv
    obtain ⟨i, -, rfl⟩ := mem_map.mp hv
    refine ⟨by dsimp only; omega, by dsimp only; omega, by simp, ?_⟩
    simp only [Vma.npages, Nat.add_sub_cancel_left]
    decide
  · refine pairwise_map.mpr (pairwise_lt_range.imp ?_)
    dsimp only
    omega

/-- With an unaligned start both calls fail and leave the 31 entries alone. -/
theorem range_failure_keeps_crowded :
    (vmaUnmapRange (Kernel.boot virtCfg) crowdedSet 4097 8192).1 = none ∧
      ∀ set' k', vmaUnmapRange (Kernel.boot virtCfg) crowdedSet 4097 8192 = (none, set', k') →
        set' = crowdedSet := by
  refine ⟨by decide +kernel, (range_failure_keeps_iff crowdedSet_wf 1).1.mpr fun h => ?_⟩
  exact absurd h.aligned (by decide)

/-- The middle page of a region, with 31 entries in use: both calls fail and leave 32 entries. -/
theorem crowded_range_torn : VmaWf crowdedSet ∧
      (vmaUnmapRange (Kernel.boot virtCfg) crowdedSet 4096 8192).1 = none ∧
      (vmaUnmapRange (Kernel.boot virtCfg) crowdedSet 4096 8192).2.1 ≠ crowdedSet ∧
      (vmaProtectRange (Kernel.boot virtCfg) crowdedSet 4096 8192 1).1 = none ∧
      (vmaProtectRange (Kernel.boot virtCfg) crowdedSet 4096 8192 1).2.1 ≠ crowdedSet :=
  ⟨crowdedSet_wf, by decide +kernel, by decide +kernel, by decide +kernel, by decide +kernel⟩

/-! ## Cloning with the arrays in view

`vmaClone` in the kernel model asks whether an array can be had. Here each array has the address of its
heap block, so that it can be said which blocks are live after the call. -/

/-- The page arrays the kernel heap has handed out. The heap places a new block where no live block
is. -/
structure ArrayHeap where
  live : List Nat
  place : List Nat → Nat
  fresh : ∀ blocks, place blocks ∉ blocks

/-- An entry of the table: the region and the block of its page array. -/
abbrev VmaEntry := Vma × Nat

namespace ArrayHeap

/-- `kmalloc` of a page array. -/
def alloc (h : ArrayHeap) : ArrayHeap := { h with live := h.place h.live :: h.live }

/-- `kfree` of a page array. -/
def release (h : ArrayHeap) (block : Nat) : ArrayHeap := { h with live := h.live.erase block }

end ArrayHeap

/-- The shifting loop of `vma_insert_sorted`, with the arrays. -/
def insertEntryBack (e : VmaEntry) : List VmaEntry → List VmaEntry
  | [] => [e]
  | x :: xs => if e.1.start < x.1.start then x :: insertEntryBack e xs else e :: x :: xs

/-- `vma_insert_sorted`, with the arrays. -/
def insertEntry (set : List VmaEntry) (e : VmaEntry) : List VmaEntry :=
  (insertEntryBack e set.reverse).reverse

/-- The loop of `vma_destroy`: `vma_release_pages` on every entry. -/
def destroyEntries (k : Kernel) (h : ArrayHeap) : List VmaEntry → Kernel × ArrayHeap
  | [] => (k, h)
  | e :: es => destroyEntries (k.pmmFreeList e.1.slots) (h.release e.2) es

/-- What `vma_clone` leaves: its return value, the destination, the kernel and the heap. -/
structure CloneResult where
  ok : Bool
  dst : List VmaEntry
  kernel : Kernel
  heap : ArrayHeap

/-- The loop of `vma_clone` over the entries of the source that remain. -/
def cloneEntries (k : Kernel) (h : ArrayHeap) (dst : List VmaEntry) : VmaSet → CloneResult
  | [] => { ok := true, dst := dst, kernel := k, heap := h }
  | v :: vs =>
    match k.kmalloc with
    | (false, k) =>
      let r := destroyEntries k h dst
      { ok := false, dst := [], kernel := r.1, heap := r.2 }
    | (true, k) =>
      cloneEntries k h.alloc
        (insertEntry dst ({ v with pages := v.pages.take v.npages }, h.place h.live)) vs

/-- The first `n` requests for an array are granted and the next one is not. -/
def FailsAfter (k : Kernel) : Nat → Prop
  | 0 => k.kmalloc.1 = false
  | n + 1 => k.kmalloc.1 = true ∧ FailsAfter k.kmalloc.2 n

/-- The copies made before an array is refused name a page of the source. -/
def CopiesPages (k : Kernel) (src : VmaSet) : Prop :=
  ∃ n < src.length, FailsAfter k n ∧ vmaSlots (src.take n) ≠ []

section

lemma insertEntryBack_perm (e : VmaEntry) (es : List VmaEntry) :
    (insertEntryBack e es).Perm (e :: es) := by
  induction es with
  | nil => exact List.Perm.refl _
  | cons x xs ih =>
    rw [insertEntryBack]
    split
    · exact (ih.cons x).trans (List.Perm.swap _ _ _)
    · exact List.Perm.refl _

lemma insertEntry_perm (set : List VmaEntry) (e : VmaEntry) : (insertEntry set e).Perm (e :: set) :=
  (reverse_perm _).trans
    ((insertEntryBack_perm e set.reverse).trans ((reverse_perm set).cons e))

/-- Destroying the entries frees the pages they name. -/
lemma destroyEntries_kernel (k : Kernel) (h : ArrayHeap) (es : List VmaEntry) :
    (destroyEntries k h es).1 = k.pmmFreeList (vmaSlots (es.map Prod.fst)) := by
  induction es generalizing k h with
  | nil => rfl
  | cons e es ih =>
    rw [destroyEntries, ih, map_cons, vmaSlots_cons]
    simp only [Kernel.pmmFreeList, Pmm.freeList_append]

/-- Destroying the entries releases their arrays and no other block. -/
lemma destroyEntries_live (k : Kernel) {h : ArrayHeap} {es : List VmaEntry}
    (hl : h.live.Perm (es.map Prod.snd ++ rest)) :
    (destroyEntries k h es).2.live.Perm rest := by
  induction es generalizing k h with
  | nil => exact hl
  | cons e es ih =>
    refine ih _ ?_
    have hcons := hl.erase e.2
    rwa [map_cons, cons_append, erase_cons_head] at hcons

/-- **A clone that fails**, in terms of the request that was refused: the destination is empty, its
arrays are released, and the pages named by the copies made so far have been freed. -/
lemma cloneEntries_failed {h : ArrayHeap} {dst : List VmaEntry}
    (hl : h.live.Perm (dst.map Prod.snd ++ rest)) (hfail : (cloneEntries k h dst src).ok = false) :
    (cloneEntries k h dst src).dst = [] ∧ (cloneEntries k h dst src).heap.live.Perm rest ∧
      ∃ n < src.length, FailsAfter k n ∧ ∃ k1 xs, HeapStep k k1 ∧
        xs.Perm (vmaSlots (dst.map Prod.fst) ++ vmaSlots (src.take n)) ∧
        (cloneEntries k h dst src).kernel = k1.pmmFreeList xs := by
  induction src generalizing k h dst with
  | nil => cases hfail
  | cons v vs ih =>
    rw [cloneEntries] at hfail ⊢
    rcases hk : k.kmalloc with ⟨b, k1⟩
    rw [hk] at hfail
    cases b with
    | false =>
      refine ⟨rfl, destroyEntries_live k1 hl, 0, by simp, ?_, k1, _, heapStep_kmalloc hk, ?_,
        destroyEntries_kernel k1 h dst⟩
      · rw [FailsAfter, hk]
      · rw [take_zero]
        exact .of_eq (append_nil _).symm
    | true =>
      have hperm := insertEntry_perm dst (v.trim, h.place h.live)
      have hl' : h.alloc.live.Perm
          ((insertEntry dst (v.trim, h.place h.live)).map Prod.snd ++ rest) :=
        (hl.cons _).trans ((hperm.map Prod.snd).symm.append_right rest)
      obtain ⟨hdst, hlive, n, hn, hfa, k2, xs, hstep, hxs, hker⟩ := ih hl' hfail
      refine ⟨hdst, hlive, n + 1, by simpa using hn, ?_, k2, xs,
        (heapStep_kmalloc hk).trans hstep, ?_, hker⟩
      · rw [FailsAfter, hk]
        exact ⟨rfl, hfa⟩
      -- the copy of `v` names the pages of `v`
      refine hxs.trans ?_
      have hmap := vmaSlots_perm (hperm.map Prod.fst)
      rw [map_cons, vmaSlots_cons, slots_trim] at hmap
      refine (hmap.append_right _).trans ?_
      rw [take_succ_cons, vmaSlots_cons]
      refine (perm_append_comm.append_right _).trans ?_
      rw [append_assoc]

lemma cloneEntries_refused {h : ArrayHeap} {dst : List VmaEntry} (hn : n < src.length)
    (hf : FailsAfter k n) :
    (cloneEntries k h dst src).ok = false := by
  induction src generalizing k h dst n with
  | nil => cases hn
  | cons v vs ih =>
    rw [cloneEntries]
    rcases hk : k.kmalloc with ⟨b, k1⟩
    cases n with
    | zero =>
      rw [FailsAfter, hk] at hf
      cases hf
      rfl
    | succ n =>
      rw [FailsAfter, hk] at hf
      obtain ⟨hb, hf⟩ := hf
      cases hb
      exact ih (by simpa using hn) hf

/-- Only one request can be the first that is refused. -/
lemma FailsAfter.unique {m : Nat} (hm : FailsAfter k m) (hn : FailsAfter k n) : m = n := by
  induction m generalizing k n with
  | zero =>
    cases n with
    | zero => rfl
    | succ n => exact absurd (hm.symm.trans hn.1) (by decide)
  | succ m ih =>
    cases n with
    | zero => exact absurd (hn.symm.trans hm.1) (by decide)
    | succ n => rw [ih hm.2 hn.2]

lemma insertEntry_map (set : List VmaEntry) (e : VmaEntry) :
    (insertEntry set e).map Prod.fst = vmaInsertSorted (set.map Prod.fst) e.1 := by
  have hback : ∀ es : List VmaEntry,
      (insertEntryBack e es).map Prod.fst = insertBack e.1 (es.map Prod.fst) := by
    intro es
    induction es with
    | nil => rfl
    | cons x xs ih =>
      rw [insertEntryBack, map_cons, insertBack]
      split
      · rw [map_cons, ih]
      · rfl
  rw [insertEntry, vmaInsertSorted, map_reverse, hback, map_reverse]

end

/-- **A failed clone** leaves an empty destination, no array and every page of the source allocated,
exactly when no page had been copied by the request that was refused. -/
theorem clone_failure_iff {k : Kernel} (h : ArrayHeap) {src : VmaSet}
    (hal : ∀ pa ∈ vmaSlots src, k.pmm.Allocated pa) :
    ((cloneEntries k h [] src).ok = false →
      (cloneEntries k h [] src).dst = [] ∧ (cloneEntries k h [] src).heap.live.Perm h.live ∧
        ∀ pa ∈ vmaSlots src, (cloneEntries k h [] src).kernel.pmm.Allocated pa) ↔
      ¬ CopiesPages k src := by
  have hl : h.live.Perm (([] : List VmaEntry).map Prod.snd ++ h.live) := List.Perm.refl _
  constructor
  · rintro hgood ⟨n, hn, hf, hne⟩
    have hfail : (cloneEntries k h [] src).ok = false := cloneEntries_refused hn hf
    obtain ⟨-, -, m, -, hm, k1, xs, -, hxs, hker⟩ := cloneEntries_failed hl hfail
    rw [hm.unique hf] at hxs
    obtain ⟨pa, hpa⟩ := exists_mem_of_ne_nil _ hne
    have hsrc : pa ∈ vmaSlots src := by
      obtain ⟨v, hv, hp⟩ := mem_flatMap.mp hpa
      exact mem_flatMap.mpr ⟨v, mem_of_mem_take hv, hp⟩
    have hout := (hgood hfail).2.2 pa hsrc
    rw [hker] at hout
    exact ((Pmm.freeList_given k1.pmm xs pa).mp hout).2 (hxs.mem_iff.mpr hpa)
  intro hno hfail
  obtain ⟨hdst, hlive, n, hn, hf, k1, xs, ⟨-, hg⟩, hxs, hker⟩ :=
    cloneEntries_failed hl hfail
  refine ⟨hdst, hlive, fun pa hpa => ?_⟩
  have hnil : xs = [] := by
    have h0 : vmaSlots (src.take n) = [] := by
      by_contra hne
      exact hno ⟨n, hn, hf, hne⟩
    rw [h0] at hxs
    exact hxs.eq_nil
  rw [hker, hnil]
  exact hg.mono (hal pa hpa)

/-! ## A clone refused at its second array -/

/-- A heap that places each block behind the live ones. -/
def bumpHeap : ArrayHeap where
  live := []
  place := fun blocks => blocks.sum + 1
  fresh := by
    intro blocks hmem
    have hle := le_sum_of_mem hmem
    omega

/-- The first page above the reserved ones is in use; the answers to the array requests are given. -/
def onePageKernel (answers : List Grant) : Kernel :=
  { Kernel.boot virtCfg with pmm := (Pmm.init virtCfg).bitmapSet 256, grants := answers }

/-- Two regions of one page, the first of which records the page in use. -/
def pairSet : VmaSet :=
  [{ start := 0x10000, end_ := 0x11000, prot := 3, flags := 1, pages := [pfnToPhys 256] },
    { start := 0x20000, end_ := 0x21000, prot := 3, flags := 1, pages := [0] }]

lemma pairSet_slots : vmaSlots pairSet = [pfnToPhys 256] := by decide

lemma pairSet_allocated (answers : List Grant) :
    ∀ pa ∈ vmaSlots pairSet, (onePageKernel answers).pmm.Allocated pa := by
  intro pa hpa
  rw [pairSet_slots, mem_singleton] at hpa
  subst hpa
  exact (Pmm.allocated_pfnToPhys _ 256).mpr
    ⟨le_refl 256, show 256 < virtCfg.totalPages by decide, rfl⟩

/-- When already the first array is refused, nothing of the source is lost. -/
theorem clone_failure_first_array :
    (cloneEntries (onePageKernel [.fail]) bumpHeap [] pairSet).ok = false ∧
      ∀ pa ∈ vmaSlots pairSet,
        (cloneEntries (onePageKernel [.fail]) bumpHeap [] pairSet).kernel.pmm.Allocated pa := by
  refine ⟨rfl, ((clone_failure_iff bumpHeap (pairSet_allocated _)).mpr ?_ rfl).2.2⟩
  rintro ⟨n, hn, hf, hne⟩
  cases n with
  | zero => exact hne rfl
  | succ n => cases hf.1

/-- When the second array is refused, the page of the first region is freed under the source. -/
theorem clone_frees_source_page :
    (∀ pa ∈ vmaSlots pairSet, (onePageKernel [.ok, .fail]).pmm.Allocated pa) ∧
      (cloneEntries (onePageKernel [.ok, .fail]) bumpHeap [] pairSet).ok = false ∧
      pfnToPhys 256 ∈ vmaSlots pairSet ∧
      ¬ (cloneEntries (onePageKernel [.ok, .fail]) bumpHeap [] pairSet).kernel.pmm.Allocated
        (pfnToPhys 256) := by
  refine ⟨pairSet_allocated _, rfl, by decide, fun hal => ?_⟩
  have hbit := ((Pmm.allocated_pfnToPhys _ 256).mp hal).2.2
  revert hbit
  decide +kernel

end FermiOs
