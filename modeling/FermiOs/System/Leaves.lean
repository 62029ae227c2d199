import FermiOs.System.Tasks

/-!
# Records and leaves

Which record of a task a leaf of its page table comes from. The records outside the regions are
mappings with an address, a run of pages and flags; a region records one page for each of its slots.
`Task.Backs` says that some record gives an address its page, and `Task.Entry` that a leaf is backed by
a record of the task or shows the window on the kernel's text, without write permission.
-/

namespace FermiOs
open Library List

/-- The mapping gives address `a` the page `p`. -/
def Mapping.Backs (m : Mapping) (a p : Nat) : Prop :=
  InPages m.va m.pages a ∧ p = m.pa + (a / 4096 - m.va / 4096) * 4096

variable {a p : Nat} {k : Kernel} {m : Mapping} {t : Task} {w : Pte}

lemma Mapping.Backs.mem (h : m.Backs a p) : p ∈ pagesFrom m.pa m.pages := by
  obtain ⟨⟨hlo, hhi⟩, rfl⟩ := h
  exact mem_pagesFrom.mpr ⟨a / 4096 - m.va / 4096, by omega, rfl⟩

/-- What a mapping, possibly cut short, shows at an address. -/
lemma Mapping.Cut.backs {m' : Mapping} (hc : m.Cut m') (h : m'.at? a = some w) :
    ∃ p, m.Backs a p ∧ w = leafPte p m.flags := by
  obtain ⟨hin, hw⟩ := Mapping.at?_some (hc.at? h)
  exact ⟨_, ⟨hin, rfl⟩, hw⟩

/-! ## The mappings of a region -/

lemma mem_pageMappings {flags : Pte} {va : Nat} {pages : List Nat} : m ∈ pageMappings flags va pages ↔
      ∃ i p, pages[i]? = some p ∧ p ≠ 0 ∧ m = ⟨va + i * 4096, p, 1, flags⟩ := by
  induction pages generalizing va with
  | nil => simp [pageMappings]
  | cons q pages ih =>
    have htail : m ∈ pageMappings flags (va + 4096) pages ↔
        ∃ i p, (q :: pages)[i + 1]? = some p ∧ p ≠ 0 ∧ m = ⟨va + (i + 1) * 4096, p, 1, flags⟩ := by
      rw [ih]
      refine exists_congr fun i => exists_congr fun p => ?_
      rw [getElem?_cons_succ, show va + 4096 + i * 4096 = va + (i + 1) * 4096 by omega]
    have hsplit : (∃ i p, (q :: pages)[i]? = some p ∧ p ≠ 0 ∧ m = ⟨va + i * 4096, p, 1, flags⟩) ↔
        (q ≠ 0 ∧ m = ⟨va, q, 1, flags⟩) ∨ m ∈ pageMappings flags (va + 4096) pages := by
      rw [htail]
      constructor
      · rintro ⟨_ | i, p, hp, h0, hm⟩
        · cases hp
          exact .inl ⟨h0, by simpa using hm⟩
        · exact .inr ⟨i, p, hp, h0, hm⟩
      · rintro (⟨h0, hm⟩ | ⟨i, p, hp, h0, hm⟩)
        · exact ⟨0, q, rfl, h0, by simpa using hm⟩
        · exact ⟨i + 1, p, hp, h0, hm⟩
    rw [hsplit, pageMappings]
    split_ifs with hq
    · simp [hq]
    · rw [mem_cons]
      simp [hq]

/-- A mapping of a region is one of its recorded pages. -/
lemma holds_of_mem_setMappings {set : VmaSet} (hok : AllOk set) (hm : m ∈ setMappings set) :
    m.pa ≠ 0 ∧ m.pages = 1 ∧ ∃ prot flags, m.flags = mmuProtToFlags prot ∧ ∀ a, InPages m.va m.pages a →
        vmaSeg.Holds set a (prot, flags, m.pa) := by
  obtain ⟨v, hv, hm⟩ := mem_flatMap.mp hm
  obtain ⟨i, p, hp, h0, rfl⟩ := mem_pageMappings.mp hm
  have hvok := hok v hv
  rw [getElem?_take] at hp
  split at hp
  · rename_i hi
    refine ⟨h0, rfl, v.prot, v.flags, rfl, fun a ha => ⟨v, hv, ?_, ?_⟩⟩
    · have h1 := hvok.start_aligned
      have h2 := hvok.end_aligned
      simp only [InPages, Vma.npages] at ha hi
      exact show v.start ≤ a ∧ a < v.end_ by omega
    have hidx : (a - v.start) / 4096 = i := by
      have h1 := hvok.start_aligned
      simp only [InPages] at ha
      omega
    show (v.prot, v.flags, v.slot a) = _
    rw [Vma.slot, hidx, getD_eq_getElem?_getD, hp]
    rfl
  · cases hp

/-! ## Records of a task -/

/-- No record of the task is a null address. -/
structure Task.Solid (t : Task) : Prop where
  regions : ∀ r ∈ t.regions, r.phys ≠ 0
  stack : t.ustackPhys ≠ 0
  tls : t.tlsPhys ≠ 0
  grown : ∀ g ∈ t.grown, g.2 ≠ 0

/-- A record of the task gives address `a` the page `p`. -/
def Task.Backs (t : Task) (a p : Nat) : Prop :=
  (∃ m ∈ t.privateMappings, m.Backs a p) ∨
    (p ≠ 0 ∧ ∃ prot flags, vmaSeg.Holds t.vmas a (prot, flags, p))

lemma Task.Solid.private_mem (hs : t.Solid) (hm : m ∈ t.privateMappings)
    (hp : p ∈ pagesFrom m.pa m.pages) : p ∈ t.userPages := by
  simp only [Task.privateMappings, cons_append, mem_append, mem_cons, mem_map,
    not_mem_nil, or_false] at hm
  simp only [Task.userPages, mem_append]
  rcases hm with ⟨r, hr, rfl⟩ | rfl | ⟨g, hg, rfl⟩ | rfl
  · refine .inr (.inl (mem_flatMap.mpr ⟨r, hr, ?_⟩))
    rw [runPages_of_ne _ (hs.regions r hr)]
    exact hp
  · rw [runPages_of_ne _ hs.stack]
    exact .inl hp
  · refine .inr (.inr (.inl (mem_filter.mpr ⟨mem_map.mpr ⟨g, hg, ?_⟩, ?_⟩)))
    · rw [show pagesFrom (grownMapping g).pa (grownMapping g).pages = [g.2] from pagesFrom_one g.2]
        at hp
      exact (mem_singleton.mp hp).symm
    · rw [show pagesFrom (grownMapping g).pa (grownMapping g).pages = [g.2] from pagesFrom_one g.2]
        at hp
      rw [mem_singleton.mp hp]
      exact decide_eq_true (hs.grown g hg)
  · rw [runPages_of_ne 1 hs.tls]
    exact .inr (.inr (.inr (.inr hp)))

/-- A page a record gives to an address is one of the pages of the task. -/
lemma Task.Backs.mem_userPages (hs : t.Solid) (hok : AllOk t.vmas) (h : t.Backs a p) :
    p ∈ t.userPages := by
  rcases h with ⟨m, hm, hb⟩ | ⟨h0, prot, flags, v, hv, hc, hval⟩
  · exact hs.private_mem hm hb.mem
  simp only [vmaSeg, Prod.mk.injEq] at hval
  obtain ⟨-, -, rfl⟩ := hval
  have hslot := slot_mem_slots (hok v hv) hc h0
  simp only [Task.userPages, mem_append]
  exact .inr (.inr (.inr (.inl (mem_flatMap.mpr ⟨v, hv, hslot⟩))))

/-- The leaf comes from a record, or shows the window and cannot be written. -/
def Task.Entry (cfg : MemCfg) (t : Task) (a : Nat) (w : Pte) : Prop :=
  t.Backs a (pteFrame w) ∨
    t.regions = [] ∧ (textMapping cfg).Backs a (pteFrame w) ∧ el0Write w = false

/-- The flags of every record are permission bits only. -/
lemma privateMappings_flagsOk (hm : m ∈ t.privateMappings) : FlagsOk m.flags := by
  simp only [Task.privateMappings, cons_append, mem_append, mem_cons, mem_map,
    not_mem_nil, or_false] at hm
  rcases hm with ⟨r, hr, rfl⟩ | rfl | ⟨g, hg, rfl⟩ | rfl
  · exact flagsOk_elfPflagsToPte r.flags
  · exact flagsOk_stackFlags
  · exact flagsOk_stackFlags
  · exact flagsOk_stackFlags

lemma userPages_mem_taskPages (h : p ∈ t.userPages) :
    p ∈ taskPages k t := mem_append_right _ (mem_append_left _ h)

/-- What a mapping of the records shows is an entry. -/
lemma entry_of_cut (hs : t.Solid) (hok : AllOk t.vmas) (hown : k.Owns (taskPages k t))
    {m' : Mapping} (hc : m.Cut m') (hw : m'.at? a = some w)
    (hm : m ∈ t.privateMappings ∨ m ∈ setMappings t.vmas ∨
      t.regions = [] ∧ m = textMapping k.pmm.cfg) : t.Entry k.pmm.cfg a w := by
  obtain ⟨p, hb, rfl⟩ := hc.backs hw
  -- the page is allocated, so that the descriptor points at it
  have hframe : p ∈ t.userPages → FlagsOk m.flags → pteFrame (leafPte p m.flags) = p := by
    intro hp hf
    obtain ⟨h1, -, h2⟩ := (hown.2 p (userPages_mem_taskPages hp)).bounds
    exact leafPte_frame hf h1 h2
  rcases hm with hm | hm | ⟨hnil, rfl⟩
  · refine .inl ?_
    rw [hframe (hs.private_mem hm hb.mem) (privateMappings_flagsOk hm)]
    exact .inl ⟨m, hm, hb⟩
  · obtain ⟨h0, h1, prot, flags, hf, hholds⟩ := holds_of_mem_setMappings hok hm
    have hp : p = m.pa := by
      have := hb.mem
      rw [h1, pagesFrom_one] at this
      exact mem_singleton.mp this
    have hback : t.Backs a p := .inr ⟨hp ▸ h0, prot, flags, hp ▸ hholds a hb.1⟩
    refine .inl ?_
    rw [hframe (hback.mem_userPages hs hok) (hf ▸ flagsOk_mmuProtToFlags prot)]
    exact hback
  refine .inr ⟨hnil, ?_, ?_⟩
  · have hbound : p % 4096 = 0 ∧ p < 2 ^ 48 := by
      have htext := k.pmm.cfg.text_fits
      obtain ⟨⟨hlo, hhi⟩, rfl⟩ := hb
      simp only [textMapping, memStart] at hhi ⊢
      omega
    rw [show (textMapping k.pmm.cfg).flags = textFlags from rfl,
      leafPte_frame flagsOk_textFlags hbound.1 hbound.2]
    exact hb
  · rw [leafPte_el0Write]
    exact textFlags_el0Write

/-- A table that shows mappings of the records has entries only. -/
lemma entry_of_overlay (hs : t.Solid) (hok : AllOk t.vmas) (hown : k.Owns (taskPages k t))
    {L ms : List Mapping} (hcut : Forall₂ Mapping.Cut L ms)
    (hL : ∀ m ∈ L, m ∈ t.privateMappings ∨ m ∈ setMappings t.vmas ∨
      t.regions = [] ∧ m = textMapping k.pmm.cfg) (h : overlay ms a = some w) :
    t.Entry k.pmm.cfg a w := by
  obtain ⟨m', hm', hat⟩ := overlay_some h
  obtain ⟨m, hm, hc⟩ := exists_left_of_forall₂ hcut hm'
  exact entry_of_cut hs hok hown hc hat (hL m hm)

end FermiOs
