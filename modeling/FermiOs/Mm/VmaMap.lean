import FermiOs.Mm.Vma

/-!
# The map a VMA set denotes

A well-formed set is a map from addresses to protection, flags and the physical page recorded there,
if any. This module relates the operations of `vma.c` to that map: splitting and merging do not
change it, a successful unmap removes the pages of the range and frees what they recorded, and a
successful re-protect changes the protection of the mapped pages of the range.

The step from the list to the map is `no_straddle`: after the two cuts no region of a well-formed set
reaches over an end of the range, so every region is inside it or apart from it.
-/

namespace FermiOs
open Library List

/-- The map denoted by a set. -/
def vmaView (set : VmaSet) (va : Nat) : Option (Nat × Nat × Option Nat) :=
  (vmaSeg.lookup set va).map fun g => (g.1, g.2.1, if g.2.2 = 0 then none else some g.2.2)

variable {end_ start : Nat} {k k' : Kernel} {set set' set1 : VmaSet} {w : Vma}

/-- Recorded pages, read off the relation of the set. -/
lemma mem_vmaSlots_iff (hok : AllOk set) {x : Nat} :
    x ∈ vmaSlots set ↔ x ≠ 0 ∧ ∃ p prot flags, vmaSeg.Holds set p (prot, flags, x) := by
  constructor
  · intro hx
    obtain ⟨v, hv, hxv⟩ := mem_flatMap.mp hx
    obtain ⟨h0, i, hi, hpg⟩ := mem_slots_iff.mp hxv
    have hal := (hok v hv).start_aligned
    have hend := (hok v hv).end_aligned
    simp only [Vma.npages] at hi
    refine ⟨h0, v.start + i * 4096, v.prot, v.flags, v, hv, ?_, ?_⟩
    · simp only [SegKind.Covers, vmaSeg]
      omega
    · simp [vmaSeg, Vma.slot, hpg]
  rintro ⟨h0, p, prot, flags, v, hv, hc, hval⟩
  simp only [vmaSeg, Prod.mk.injEq] at hval
  obtain ⟨-, -, hslot⟩ := hval
  refine mem_flatMap.mpr ⟨v, hv, ?_⟩
  rw [← hslot]
  exact slot_mem_slots (hok v hv) hc (by rw [hslot]; exact h0)

lemma vmaSplitAt_subrange {va : Nat} {b : Bool} (h : vmaSplitAt k set va = (b, set', k'))
    (hw : w ∈ set') :
    ∃ v ∈ set, v.start ≤ w.start ∧ w.end_ ≤ v.end_ := by
  obtain ⟨-, ⟨-, rfl, -⟩ | ⟨-, -, ⟨rfl, -⟩ | ⟨-, -, v, rest, hp, hp', hlo, hhi, -⟩⟩⟩ :=
    vmaSplitAt_cases h
  · exact ⟨w, hw, le_refl _, le_refl _⟩
  · exact ⟨w, hw, le_refl _, le_refl _⟩
  have hv : v ∈ set := hp.mem_iff.mpr (by simp)
  rcases mem_cons.mp (hp'.mem_iff.mp hw) with rfl | hw
  · exact ⟨v, hv, le_refl _, hhi.le⟩
  · rcases mem_cons.mp hw with rfl | hw
    · exact ⟨v, hv, hlo.le, le_refl _⟩
    · exact ⟨w, hp.mem_iff.mpr (by simp [hw]), le_refl _, le_refl _⟩

/-- After both cuts of a range, a region that covers a point of it lies inside it. -/
lemma inside_of_covers {k1 : Kernel} (hcut : cutRange k set start end_ = (true, set1, k1))
    (hwf : VmaWf set) (hw : w ∈ set1) {p : Nat} (hc : vmaSeg.Covers w p) (hlo : start ≤ p)
    (hhi : p < end_) : Inside start end_ w := by
  unfold cutRange at hcut
  split at hcut
  · cases hcut
  split at hcut
  · cases hcut
  rename_i set0 k0 h0
  obtain ⟨v, hv, hvs, hve⟩ := vmaSplitAt_subrange hcut hw
  have hstart : ¬ (v.start < start ∧ start < v.end_) := fun h => no_straddle h0 hwf ⟨v, hv, h⟩
  have hend : ¬ (w.start < end_ ∧ end_ < w.end_) := fun h =>
    no_straddle hcut ((vmaSplitAt_recut h0).wf hwf) ⟨w, hw, h⟩
  simp only [SegKind.Covers, vmaSeg] at hc
  simp only [Inside]
  omega

lemma Recut.view {xs ys : VmaSet} (h : Recut xs ys) (hwf : VmaWf xs) (p : Nat) :
    vmaView ys p = vmaView xs p := by
  unfold vmaView
  rw [vmaSeg.lookup_eq_of_holds (h.wf hwf).apart hwf.apart (h.holds hwf.ok p)]

lemma VmaWf.sublist {xs ys : VmaSet} (h : VmaWf xs) (hs : ys.Sublist xs) : VmaWf ys :=
  ⟨hs.length_le.trans h.count, h.sorted.sublist hs, fun v hv => h.ok v (hs.subset hv),
    h.apart.sublist hs⟩

/-- Releasing the regions inside a range, once both ends are cut, empties the range and nothing
else. -/
lemma lookup_filter_outside (hwf : VmaWf set1)
    (hin : ∀ w ∈ set1, ∀ p, vmaSeg.Covers w p → start ≤ p → p < end_ → Inside start end_ w)
    (p : Nat) :
    vmaSeg.lookup (set1.filter fun v => decide (¬ Inside start end_ v)) p =
      if start ≤ p ∧ p < end_ then none else vmaSeg.lookup set1 p := by
  have hwf' := hwf.sublist (filter_sublist (p := fun v => decide (¬ Inside start end_ v)))
  split_ifs with hp
  · rw [vmaSeg.lookup_eq_none_iff]
    intro b hb hc
    obtain ⟨hb, hout⟩ := mem_filter.mp hb
    exact (of_decide_eq_true hout) (hin b hb p hc hp.1 hp.2)
  refine vmaSeg.lookup_eq_of_holds hwf'.apart hwf.apart fun g => ?_
  constructor
  · rintro ⟨b, hb, h⟩
    exact ⟨b, (mem_filter.mp hb).1, h⟩
  · rintro ⟨b, hb, hc, hv⟩
    refine ⟨b, mem_filter.mpr ⟨hb, decide_eq_true fun hins => hp ?_⟩, hc, hv⟩
    simp only [SegKind.Covers, vmaSeg, Inside] at *
    omega

/-- Re-protecting the regions inside a range, once both ends are cut, changes the protection of its
points and nothing else. -/
lemma lookup_map_protect (prot : Nat)
    (hin : ∀ w ∈ set1, ∀ p, vmaSeg.Covers w p → start ≤ p → p < end_ → Inside start end_ w)
    (p : Nat) :
    vmaSeg.lookup (set1.map (protectInside start end_ prot)) p =
      if start ≤ p ∧ p < end_ then (vmaSeg.lookup set1 p).map fun g => (prot, g.2)
      else vmaSeg.lookup set1 p := by
  have hcov : ∀ v q, vmaSeg.Covers (protectInside start end_ prot v) q ↔ vmaSeg.Covers v q := by
    intro v q
    unfold protectInside
    split <;> rfl
  induction set1 with
  | nil => simp [SegKind.lookup, SegKind.find]
  | cons v vs ih =>
    have ih := ih fun w hw => hin w (by simp [hw])
    simp only [SegKind.lookup, SegKind.find, map_cons] at ih ⊢
    by_cases hv : vmaSeg.Covers v p
    · -- the first region decides; it is inside exactly when the point is in the range
      rw [find?_cons_of_pos (by simpa using (hcov v p).mpr hv), find?_cons_of_pos (by simpa using hv)]
      by_cases hp : start ≤ p ∧ p < end_
      · have hins := hin v (by simp) p hv hp.1 hp.2
        rw [if_pos hp, protectInside, if_pos (show start ≤ v.start ∧ v.end_ ≤ end_ from hins)]
        rfl
      · have hout : ¬ (start ≤ v.start ∧ v.end_ ≤ end_) := by
          simp only [SegKind.Covers, vmaSeg] at hv
          omega
        rw [if_neg hp, protectInside, if_neg hout]
    · rw [find?_cons_of_neg (by simpa using fun h => hv ((hcov v p).mp h)),
        find?_cons_of_neg (by simpa using hv)]
      exact ih

lemma protectInside_range (start end_ prot : Nat) (v : Vma) :
    (protectInside start end_ prot v).start = v.start ∧
      (protectInside start end_ prot v).end_ = v.end_ ∧
      (protectInside start end_ prot v).pages = v.pages := by
  unfold protectInside
  split <;> exact ⟨rfl, rfl, rfl⟩

/-- Changing protections keeps a set well-formed. -/
lemma VmaWf.protect (h : VmaWf set) (start end_ prot : Nat) :
    VmaWf (set.map (protectInside start end_ prot)) := by
  have hr := protectInside_range start end_ prot
  refine ⟨by simpa using h.count, ?_, ?_, ?_⟩
  · rw [pairwise_map]
    exact h.sorted.imp fun {a b} hab => by rw [(hr a).1, (hr b).1]; exact hab
  · intro w hw
    obtain ⟨v, hv, rfl⟩ := mem_map.mp hw
    obtain ⟨h1, h2, h3⟩ := hr v
    have hok := h.ok v hv
    exact ⟨by rw [h1]; exact hok.start_aligned, by rw [h2]; exact hok.end_aligned,
      by rw [h1, h2]; exact hok.nonempty,
      by rw [Vma.npages, h1, h2, h3]; exact hok.array_len⟩
  rw [SegKind.Apart, pairwise_map]
  refine h.apart.imp fun {a b} hab => ?_
  simp only [vmaSeg] at hab ⊢
  rw [(hr a).1, (hr b).1, (hr a).2.1, (hr b).2.1]
  exact hab

/-- What a successful unmap frees: it passes the pages recorded in the range to `pmm_free_page`, each
of them once, and all of them were allocated at that moment. -/
structure FreesOnce (k k' : Kernel) (pages : List Nat) : Prop where
  once : pages.Nodup
  calls : ∃ k1, HeapStep k k1 ∧ (∀ x ∈ pages, k1.pmm.Allocated x) ∧
    HeapStep (k1.pmmFreeList pages) k'

/-- Unmapping a range of a well-formed set whose recorded pages are distinct and allocated. -/
lemma vmaUnmapRange_view {n : Nat} (hwf : VmaWf set) (hown : k.Owns (vmaSlots set))
    (h : vmaUnmapRange k set start end_ = (some n, set', k')) :
    (∀ p, vmaView set' p = if start ≤ p ∧ p < end_ then none else vmaView set p) ∧
      ∃ pages, FreesOnce k k' pages ∧ n = pages.length ∧
        ∀ x, x ∈ pages ↔ ∃ p prot flags, start ≤ p ∧ p < end_ ∧
          vmaView set p = some (prot, flags, some x) := by
  rcases vmaUnmapRange_cases h with ⟨hr, -⟩ | ⟨k1, set1, hs1, hcut, hends, hr, hs2, hmerge⟩
  · cases hr
  have hwf1 := hcut.wf hwf
  have hin : ∀ w ∈ set1, ∀ p, vmaSeg.Covers w p → start ≤ p → p < end_ → Inside start end_ w :=
    fun w hw p hc hlo hhi => inside_of_covers hends hwf hw hc hlo hhi
  have hwf2 := hwf1.sublist (filter_sublist (p := fun v => decide (¬ Inside start end_ v)))
  refine ⟨fun p => ?_, vmaSlots (set1.filter fun v => decide (Inside start end_ v)), ?_, ?_, ?_⟩
  · rw [hmerge.recut.view hwf2]
    unfold vmaView
    rw [lookup_filter_outside hwf1 hin, apply_ite (Option.map _),
      vmaSeg.lookup_eq_of_holds hwf1.apart hwf.apart (hcut.holds hwf.ok p)]
    rfl
  · have hsub : (vmaSlots (set1.filter fun v => decide (Inside start end_ v))).Sublist
        (vmaSlots set1) := filter_sublist.flatMap _
    have hown1 : k1.Owns (vmaSlots set1) := (hs1.owns hown).perm (hcut.slots hwf.ok).symm
    have hown2 := hown1.sublist hsub
    exact ⟨hown2.1, k1, hs1, hown2.2, hs2⟩
  · exact Option.some.inj hr
  intro x
  have hokin : AllOk (set1.filter fun v => decide (Inside start end_ v)) :=
    fun v hv => hwf1.ok v (mem_filter.mp hv).1
  rw [mem_vmaSlots_iff hokin]
  constructor
  · rintro ⟨hx0, p, prot, flags, v, hv, hc, hval⟩
    obtain ⟨hv1, hins⟩ := mem_filter.mp hv
    have hins : Inside start end_ v := of_decide_eq_true hins
    have hlook : vmaSeg.lookup set p = some (prot, flags, x) := by
      rw [vmaSeg.lookup_eq_some_iff hwf.apart, ← hcut.holds hwf.ok]
      exact ⟨v, hv1, hc, hval⟩
    refine ⟨p, prot, flags, ?_, ?_, by simp [vmaView, hlook, hx0]⟩
    · exact hins.1.trans hc.1
    · exact lt_of_lt_of_le hc.2 hins.2
  rintro ⟨p, prot, flags, hlo, hhi, hview⟩
  obtain ⟨⟨g1, g2, g3⟩, hlook, hg⟩ := Option.map_eq_some_iff.mp hview
  simp only [Prod.mk.injEq] at hg
  obtain ⟨rfl, rfl, hg⟩ := hg
  split at hg
  · cases hg
  rename_i h0'
  cases hg
  obtain ⟨v, hv, hc, hval⟩ := (hcut.holds hwf.ok p _).mpr (vmaSeg.holds_of_lookup hlook)
  exact ⟨h0', p, g1, g2, v, mem_filter.mpr ⟨hv, decide_eq_true (hin v hv p hc hlo hhi)⟩, hc, hval⟩

/-- Re-protecting a range of a well-formed set. -/
lemma vmaProtectRange_view {prot n : Nat} (hwf : VmaWf set)
    (h : vmaProtectRange k set start end_ prot = (some n, set', k')) :
    HeapStep k k' ∧ ∀ p, vmaView set' p =
      if start ≤ p ∧ p < end_ then (vmaView set p).map fun g => (prot, g.2) else vmaView set p := by
  obtain ⟨hs, ⟨hr, -⟩ | ⟨k1, set1, hcut, hends, -, hmerge⟩⟩ := vmaProtectRange_cases h
  · cases hr
  have hwf1 := hcut.wf hwf
  have hin : ∀ w ∈ set1, ∀ p, vmaSeg.Covers w p → start ≤ p → p < end_ → Inside start end_ w :=
    fun w hw p hc hlo hhi => inside_of_covers hends hwf hw hc hlo hhi
  refine ⟨hs, fun p => ?_⟩
  rw [hmerge.recut.view (hwf1.protect start end_ prot)]
  unfold vmaView
  rw [lookup_map_protect prot hin, apply_ite (Option.map _),
    vmaSeg.lookup_eq_of_holds hwf1.apart hwf.apart (hcut.holds hwf.ok p), Option.map_map,
    Option.map_map]
  rfl

/-- **The set operations on the denoted map.** For a well-formed set whose recorded pages are
distinct and allocated, splitting and merging change nothing; a successful unmap of `[start, end_)`
removes its points, frees each recorded page once and returns their number; a successful re-protect
changes the protection of the mapped points of the range and takes or frees no page. -/
theorem vma_operations_refine_map (k : Kernel) (set : VmaSet) (hwf : VmaWf set)
    (hown : k.Owns (vmaSlots set)) (start end_ : Nat) :
    (∀ va p, vmaView (vmaSplitAt k set va).2.1 p = vmaView set p) ∧
    (∀ p, vmaView (vmaMergeAdjacent k set).2.1 p = vmaView set p) ∧
    (∀ n set' k', vmaUnmapRange k set start end_ = (some n, set', k') →
      (∀ p, vmaView set' p = if start ≤ p ∧ p < end_ then none else vmaView set p) ∧
      ∃ pages, FreesOnce k k' pages ∧ n = pages.length ∧
        ∀ x, x ∈ pages ↔ ∃ p prot flags, start ≤ p ∧ p < end_ ∧
          vmaView set p = some (prot, flags, some x)) ∧
    (∀ prot n set' k', vmaProtectRange k set start end_ prot = (some n, set', k') →
      HeapStep k k' ∧ ∀ p, vmaView set' p =
        if start ≤ p ∧ p < end_ then (vmaView set p).map fun g => (prot, g.2)
        else vmaView set p) := by
  refine ⟨fun va p => ?_, fun p => ?_, fun n set' k' h => vmaUnmapRange_view hwf hown h,
    fun prot n set' k' h => vmaProtectRange_view hwf h⟩
  · exact (vmaSplitAt_recut (k := k) (by rfl)).view hwf p
  · exact (vmaMergeAdjacent_merged (k := k) (by rfl)).2.recut.view hwf p

/-- Two allocated pages behind a three-page region: unmapping its first page removes that page and
returns `1`. -/
theorem vma_operations_refine_map_two_pages : let k := ((Kernel.boot virtCfg).pmmAllocatePages 2).2
    let set : VmaSet := [⟨0x1000000, 0x1003000, 3, 3, [0x40100000, 0, 0x40101000]⟩]
    VmaWf set ∧ k.Owns (vmaSlots set) ∧
      (vmaUnmapRange k set 0x1000000 0x1001000).1 = some 1 ∧
      vmaView (vmaUnmapRange k set 0x1000000 0x1001000).2.1 0x1000000 = none ∧
      vmaView (vmaUnmapRange k set 0x1000000 0x1001000).2.1 0x1002000 =
        some (3, 3, some 0x40101000) := by
  intro k set
  have hwf : VmaWf set := by
    refine ⟨by decide, by simp [set], fun v hv => ?_, by simp [set, SegKind.Apart]⟩
    obtain rfl := mem_singleton.mp hv
    exact ⟨by decide, by decide, by decide, by decide⟩
  have hown : k.Owns (vmaSlots set) := by
    have hpa : ((Kernel.boot virtCfg).pmmAllocatePages 2).1 = 0x40100000 := by decide +kernel
    obtain ⟨-, ⟨h0, -⟩ | ⟨-, ht⟩⟩ :=
      Kernel.pmmAllocatePages_cases (Prod.mk.eta (p := (Kernel.boot virtCfg).pmmAllocatePages 2)).symm
    · rw [hpa] at h0
      cases h0
    · have hslots : vmaSlots set = pagesFrom 0x40100000 2 ++ [] := by decide
      rw [hpa] at ht
      rw [hslots]
      exact Kernel.Owns.take (ledger_nil _) ht
  have hres : (vmaUnmapRange k set 0x1000000 0x1001000).1 = some 1 := by decide +kernel
  have hview := ((vma_operations_refine_map k set hwf hown 0x1000000 0x1001000).2.2.1 1 _ _
    (by rw [← hres])).1
  refine ⟨hwf, hown, hres, ?_, ?_⟩
  · rw [hview]
    rfl
  · rw [hview]
    rfl

end FermiOs
