import FermiOs.System.Leaves

/-!
# Isolation

No user task can write a page it does not own, and the window on the kernel's text and read-only data
stays read-only, in every run in which no `mprotect` with write permission covers a page of the window.
`sys_mprotect` rewrites every valid leaf of the range it is given, whether the task has a region there
or not; the window is part of every address space that was not loaded by `exec`.
-/

namespace FermiOs
open Library List
variable {end_ far : Nat} {k : Kernel} {mapped : Bool} {t : Task} {w : Pte}

/-- The page belongs to the kernel's `.text` and `.rodata`. -/
def InWindow (cfg : MemCfg) (p : Nat) : Prop :=
  memStart ≤ p ∧ p < memStart + cfg.textPages * 4096
deriving Decidable

/-- A re-protection that adds write permission covers no page of the window. -/
def SparesWindow (k : Kernel) (t : Task) : Call → Prop
  | .mem (.mprotect addr length prot) => protWrite prot = true → ∀ end_ ∈ rangeEnd addr length,
      ∀ i < (end_ - addr) / 4096, ∀ w ∈ k.leaf t.l0 (addr + i * 4096),
        ¬ InWindow k.pmm.cfg (pteFrame w)
  | _ => True

instance (k : Kernel) (t : Task) (c : Call) : Decidable (SparesWindow k t c) := by
  rcases c with (_ | _ | _ | _) | _ | _ | _ <;> dsimp only [SparesWindow] <;> infer_instance

/-- Every leaf of a task comes from its records or shows the window. -/
def Leaved (k : Kernel) (t : Task) : Prop :=
  t.Solid ∧ ∀ a w, k.leaf t.l0 a = some w → t.Entry k.pmm.cfg a w

variable {a addr pa prot : Nat} {cfg : MemCfg}

lemma textMapping_inWindow {p : Nat} (h : (textMapping cfg).Backs a p) : InWindow cfg p := by
  obtain ⟨⟨hlo, hhi⟩, rfl⟩ := h
  simp only [textMapping, InWindow] at *
  omega

/-- Write permission of a re-protected leaf comes from the protection asked for. -/
lemma protectPte_write (h : el0Write (protectPte w (mmuProtToFlags prot)) = true) :
    protWrite prot = true := by
  rw [protectPte_el0Write, mmuProtToFlags_el0Write] at h
  revert h
  cases protWrite prot <;> simp

/-- The records outside the regions are the same. -/
structure SameRecords (t t' : Task) : Prop where
  ttbr0 : t'.ttbr0 = t.ttbr0
  regions : t'.regions = t.regions
  stack : t'.ustackPhys = t.ustackPhys
  tls : t'.tlsPhys = t.tlsPhys
  grown : t'.grown = t.grown

section
variable {k' : Kernel} {t' : Task} {c : Call}

lemma SameRecords.of_core (h : t'.core = t.core) : SameRecords t t' where
  ttbr0 := Task.ttbr0_of_core h
  regions := show t'.core.regions = t.core.regions from congrArg Task.regions h
  stack := show t'.core.ustackPhys = t.core.ustackPhys from congrArg Task.ustackPhys h
  tls := show t'.core.tlsPhys = t.core.tlsPhys from congrArg Task.tlsPhys h
  grown := show t'.core.grown = t.core.grown from congrArg Task.grown h

section
variable (h : SameRecords t t')
include h

lemma SameRecords.privateMappings : t'.privateMappings = t.privateMappings := by
  rw [Task.privateMappings, Task.privateMappings, h.regions, h.stack, h.grown, h.tls]

lemma SameRecords.solid (hs : t.Solid) : t'.Solid :=
  ⟨h.regions ▸ hs.regions, h.stack ▸ hs.stack, h.tls ▸ hs.tls, h.grown ▸ hs.grown⟩

lemma SameRecords.l0 : t'.l0 = t.l0 := by rw [Task.l0, Task.l0, h.ttbr0]

/-- Records that back at least as much keep an entry, whatever permission is taken from it. -/
lemma SameRecords.entry {w' : Pte} (hframe : pteFrame w' = pteFrame w)
    (hwrite : InWindow cfg (pteFrame w) → el0Write w = false →
      el0Write w' = false) (hholds : ∀ p, (∃ g h, vmaSeg.Holds t.vmas a (g, h, p)) →
      ∃ g h, vmaSeg.Holds t'.vmas a (g, h, p)) (he : t.Entry cfg a w) : t'.Entry cfg a w' := by
  rw [Task.Entry, Task.Backs, hframe, h.privateMappings, h.regions]
  rcases he with (hb | ⟨h0, hv⟩) | ⟨hnil, hb, hw⟩
  · exact .inl (.inl hb)
  · exact .inl (.inr ⟨h0, hholds _ hv⟩)
  · exact .inr ⟨hnil, hb, hwrite (textMapping_inWindow hb) hw⟩

end

lemma Leaved.rerecorded {lo hi flags : Nat} (h : Leaved k t) (hown : k.Owns (taskPages k t))
    (huser : t.ttbr0 ≠ 0) (hr : Rerecorded k t lo hi prot flags k' t') : Leaved k' t' := by
  have hsame : SameRecords t t' := by
    rw [hr.task]
    exact ⟨rfl, rfl, rfl, rfl, rfl⟩
  have hroot : k.pmm.Allocated t.l0 := hown.2 _ (root_mem_taskPages huser)
  refine ⟨hsame.solid h.1, fun a w hw => ?_⟩
  rw [hsame.l0, Kernel.leaf, hr.tables t.l0 hroot] at hw
  rw [hr.step.cfg]
  refine hsame.entry rfl (fun _ hw => hw) ?_ (h.2 a w hw)
  rintro p ⟨g, h', hg⟩
  exact ⟨g, h', (hr.holds a _).mpr (.inl hg)⟩

lemma Leaved.unmapped (h : Leaved k t) (hr : Unmapped k t addr end_ k' t') : Leaved k' t' := by
  have hsame : SameRecords t t' := by
    rw [hr.task]
    exact ⟨rfl, rfl, rfl, rfl, rfl⟩
  refine ⟨hsame.solid h.1, fun a w hw => ?_⟩
  rw [hsame.l0, hr.leaf] at hw
  split at hw
  · cases hw
  rename_i hout
  rw [hr.step.cfg]
  refine hsame.entry rfl (fun _ hw => hw) ?_ (h.2 a w hw)
  rintro p ⟨g, h', hg⟩
  refine ⟨g, h', (hr.lost a _ hg).resolve_right fun hin => hout ?_⟩
  obtain ⟨h1, h2, h3⟩ := hr.aligned
  simp only [InPages]
  omega

/-- The leaf at the start of the page. -/
lemma leaf_pageStart {l0 n : Nat} (hal : addr % 4096 = 0) (hin : InPages addr n a) :
    k.leaf l0 a = k.leaf l0 (addr + (a / 4096 - addr / 4096) * 4096) := by
  refine PageTable.leaf_page _ ?_
  simp only [InPages, SamePage] at *
  omega

lemma Leaved.reprotected {length : Nat} (h : Leaved k t)
    (hr : Reprotected k t addr end_ prot k' t') (hend : rangeEnd addr length = some end_)
    (hspare : SparesWindow k t (.mem (.mprotect addr length prot))) : Leaved k' t' := by
  have hsame : SameRecords t t' := by
    rw [hr.task]
    exact ⟨rfl, rfl, rfl, rfl, rfl⟩
  have hholds : ∀ a p, (∃ g h, vmaSeg.Holds t.vmas a (g, h, p)) →
      ∃ g h, vmaSeg.Holds t'.vmas a (g, h, p) := fun a p => (hr.pages a p).mpr
  refine ⟨hsame.solid h.1, fun a w hw => ?_⟩
  rw [hr.step.cfg]
  rw [hsame.l0, hr.leaf] at hw
  split_ifs at hw with hin
  · obtain ⟨w0, hw0, rfl⟩ := Option.map_eq_some_iff.mp hw
    refine hsame.entry (protectPte_frame _ _) (fun hwin _ => ?_) (hholds a) (h.2 a w0 hw0)
    -- a page of the window does not become writable
    refine Bool.eq_false_iff.mpr fun hwr => ?_
    rw [leaf_pageStart hr.aligned.1 hin] at hw0
    exact hspare (protectPte_write hwr) end_ hend (a / 4096 - addr / 4096)
      (by simp only [InPages] at hin; omega) w0 hw0 hwin
  · exact hsame.entry rfl (fun _ hw => hw) (hholds a) (h.2 a w hw)

lemma Leaved.grown (h : Leaved k t) (hown : k.Owns (taskPages k t))
    (hr : StackGrown k t far pa mapped t' k') : Leaved k' t' := by
  have hl := hr.local
  have hown' : k'.Owns (taskPages k' t' ++ []) := hl.owns [] (by rw [append_nil]; exact hown)
  obtain ⟨k1, hpage, -⟩ := hr.page
  have hl0 : t'.l0 = t.l0 := by rw [hr.task]; rfl
  have hsolid : t'.Solid := by
    rw [hr.task]
    refine ⟨h.1.regions, h.1.stack, h.1.tls, fun g hg => ?_⟩
    rcases mem_append.mp hg with hg | hg
    · exact h.1.grown g hg
    · rw [mem_singleton.mp hg]
      exact hpage.ne_zero
  have hpriv : ∀ m ∈ t.privateMappings, m ∈ t'.privateMappings := by
    intro m hm
    rw [hr.task]
    simp only [Task.privateMappings, map_append, cons_append, mem_append, mem_cons] at hm ⊢
    tauto
  refine ⟨hsolid, fun a w hw => ?_⟩
  rw [hl0, hr.leaf] at hw
  rw [hl.cfg]
  split at hw
  · -- the new page
    rename_i hnew
    cases hw
    have hmem : grownMapping (pageAlignDown far, pa) ∈ t'.privateMappings := by
      rw [hr.task]
      simp [Task.privateMappings]
    have hb : (grownMapping (pageAlignDown far, pa)).Backs a pa := by
      have hpg := (samePage_pageAlignDown a far).mpr hnew.2
      refine ⟨(inPages_succ _ 0 a).mpr (.inl hpg), ?_⟩
      show pa = pa + (a / 4096 - pageAlignDown far / 4096) * 4096
      rw [show a / 4096 = pageAlignDown far / 4096 from hpg, Nat.sub_self, Nat.zero_mul, Nat.add_zero]
    have halloc := hown'.2 pa (mem_append_left _ (userPages_mem_taskPages
      (hsolid.private_mem hmem hb.mem)))
    refine .inl (.inl ⟨_, hmem, ?_⟩)
    rw [leafPte_frame flagsOk_stackFlags halloc.bounds.1 halloc.bounds.2.2]
    exact hb
  have hregions : t'.regions = t.regions := by rw [hr.task]
  have hvmas : t'.vmas = t.vmas := by rw [hr.task]
  rcases h.2 a w hw with (⟨m, hm, hb⟩ | hv) | ⟨hnil, hrest⟩
  · exact .inl (.inl ⟨m, hpriv m hm, hb⟩)
  · exact .inl (.inr (hvmas ▸ hv))
  · exact .inr ⟨hregions.trans hnil, hrest⟩

lemma Leaved.faulted {v : Vma} (h : Leaved k t) (hok : AllOk t.vmas)
    (hnone : k.leaf t.l0 far = none) (hr : FaultedIn k t far v pa mapped t' k')
    (hown : k.Owns (taskPages k t)) : Leaved k' t' := by
  have hsame : SameRecords t t' := by
    rw [hr.task]
    exact ⟨rfl, rfl, rfl, rfl, rfl⟩
  have hl := hr.local hok
  have hown' : k'.Owns (taskPages k' t' ++ []) := hl.owns [] (by rw [append_nil]; exact hown)
  obtain ⟨k1, hpage, -⟩ := hr.page
  refine ⟨hsame.solid h.1, fun a w hw => ?_⟩
  rw [hsame.l0, hr.leaf] at hw
  rw [hl.cfg]
  by_cases hpg : SamePage a far
  · split at hw
    · cases hw
      have hback : t'.Backs a pa := .inr ⟨hpage.ne_zero, _, _, hr.holds_on hok hpg⟩
      have halloc := hown'.2 pa (mem_append_left _ (userPages_mem_taskPages
        (hback.mem_userPages (hsame.solid h.1) (hr.allOk hok))))
      refine .inl ?_
      rw [leafPte_frame (flagsOk_mmuProtToFlags v.prot) halloc.bounds.1 halloc.bounds.2.2]
      exact hback
    · -- the page is not in the table
      rw [Kernel.leaf, PageTable.leaf_page _ hpg, ← Kernel.leaf, hnone] at hw
      cases hw
  · rw [if_neg fun hc => hpg hc.2] at hw
    refine hsame.entry rfl (fun _ hw => hw) ?_ (h.2 a w hw)
    rintro p ⟨g, h', hg⟩
    exact ⟨g, h', (hr.holds_off hok hpg _).mpr hg⟩

/-- Loading an image: the new table shows the new records. -/
lemma Leaved.execed (hown : k.Owns (taskPages k t)) (hr : Execed k t k' t') : Leaved k' t' := by
  have hown' : k'.Owns (taskPages k' t' ++ []) := hr.step.owns [] (by rw [append_nil]; exact hown)
  rw [append_nil] at hown'
  have hgrown : t'.grown = [] := hr.records.2.1
  have hok : AllOk t'.vmas := by
    rw [hr.records.1]
    exact nofun
  have hsolid : t'.Solid := ⟨hr.phys_ne.1, hr.phys_ne.2.1, hr.phys_ne.2.2, by simp [hgrown]⟩
  obtain ⟨ms, hcut, hleaf⟩ := hr.leaf
  refine ⟨hsolid, fun a w hw => ?_⟩
  rw [hleaf] at hw
  exact entry_of_overlay hsolid hok hown' hcut (fun m hm => .inl hm) hw

lemma Leaved.effect (h : Leaved k t) (hok : AllOk t.vmas) (hown : k.Owns (taskPages k t))
    (huser : t.ttbr0 ≠ 0) (hc : SparesWindow k t c) (he : Effect k t c k' t') : Leaved k' t' := by
  cases he with
  | rerecorded lo hi prot flags hadd hr => exact h.rerecorded hown huser hr
  | unmapped addr length end_ hcall hend hr => exact h.unmapped hr
  | reprotected addr length end_ prot hcall hend hr =>
    subst hcall
    exact h.reprotected hr hend hc
  | grown far pa mapped hnone hr => exact h.grown hown hr
  | faulted far pa v mapped hnone hr => exact h.faulted hok hnone hr hown
  | execed hr => exact Leaved.execed hown hr

end

lemma leaved_create {k' : Kernel} {entryOk : Bool} (h : schedCreateTask k entryOk = (some t, k')) :
    Leaved k' t := by
  obtain ⟨hnone, -⟩ | ⟨u, hu, hsp, ⟨pid, kstack, ttbr0, ustack, tls, fds, hnew, -, hs, htls⟩, ms, hcut,
    hleaf⟩ := schedCreateTask_cases h
  · cases hnone
  cases hu
  have hown : k'.Owns (taskPages k' t ++ []) := hsp.owns [] (ledger_nil _)
  rw [append_nil] at hown
  have hsolid : t.Solid := by
    rw [hnew]
    exact ⟨forall_mem_nil _, hs, htls, forall_mem_nil _⟩
  have hok : AllOk t.vmas := by
    rw [hnew]
    exact nofun
  have hnil : t.regions = [] := by rw [hnew]; rfl
  refine ⟨hsolid, fun a w hw => ?_⟩
  rw [hleaf] at hw
  refine entry_of_overlay hsolid hok hown hcut (fun m hm => ?_) hw
  rw [hsp.cfg]
  simp only [mem_cons, not_mem_nil, or_false] at hm
  rcases hm with rfl | rfl | rfl
  · exact .inr (.inr ⟨hnil, rfl⟩)
  · exact .inl (by simp [Task.privateMappings])
  · exact .inl (by simp [Task.privateMappings])

/-- The mappings a child's table is built from are its own records. -/
lemma mem_recordMappings (hs : t.Solid) {m : Mapping} (hm : m ∈ t.recordMappings cfg) :
    m ∈ t.privateMappings ∨ m ∈ setMappings t.vmas ∨ t.regions = [] ∧ m = textMapping cfg := by
  simp only [Task.recordMappings, imageMappings, grownMappings_of_ne hs.grown, mem_append,
    mem_singleton] at hm
  simp only [Task.privateMappings, cons_append, mem_append, mem_cons, not_mem_nil, or_false]
  rcases hm with himg | rfl | hg | rfl | hv
  · split_ifs at himg with hnil
    · exact Or.inr (Or.inr ⟨hnil, mem_singleton.mp himg⟩)
    · exact .inl (.inl himg)
  · exact .inl (.inr (.inl rfl))
  · exact .inl (.inr (.inr (.inl hg)))
  · exact .inl (.inr (.inr (.inr rfl)))
  · exact .inr (.inl hv)

lemma leaved_fork {parent child : Task} {r : ForkResult} (hok : AllOk parent.vmas)
    (hf : Forked k parent child r) : Leaved r.k child := by
  have hown : r.k.Owns (taskPages r.k child ++ []) := hf.spawned.owns [] (ledger_nil _)
  rw [append_nil] at hown
  have hsolid : child.Solid := ⟨hf.phys_ne.1, hf.phys_ne.2.1, hf.phys_ne.2.2.1, hf.phys_ne.2.2.2⟩
  obtain ⟨ms, hcut, -, hleaf⟩ := hf.leaf
  refine ⟨hsolid, fun a w hw => ?_⟩
  rw [hleaf] at hw
  refine entry_of_overlay hsolid (Forked.allOk hf hok) hown hcut (fun m hm => ?_) hw
  rw [hf.spawned.cfg]
  exact mem_recordMappings hsolid hm

lemma leaved_property : TaskProperty Leaved SparesWindow (fun _ _ => True) where
  congr := by
    intro k k' t t' h hcore htab hcfg
    have hsame : SameRecords t t' := .of_core hcore
    refine ⟨hsame.solid h.1, fun a w hw => ?_⟩
    rw [hsame.l0, Kernel.leaf, htab] at hw
    rw [hcfg]
    refine hsame.entry rfl (fun _ hw => hw) (fun p hp => ?_) (h.2 a w hw)
    rw [Task.vmas_of_core hcore]
    exact hp
  create := leaved_create
  fork := fun _ hok _ hf => leaved_fork hok hf
  call := fun h hok hown huser hc he => h.effect hok hown huser hc he

/-! ## Isolation in every run -/

namespace Sys

/-- A leaf that EL0 can write points at a page of the task itself that no other task records or uses,
and a leaf onto the window cannot be written. -/
def Isolated (s : Sys) : Prop :=
  ∀ l₁ t l₂, s.queue.all = l₁ ++ t :: l₂ → t.ttbr0 ≠ 0 → ∀ a w, s.k.leaf t.l0 a = some w →
    (el0Write w = true → pteFrame w ∈ t.userPages ∧ s.k.pmm.Allocated (pteFrame w) ∧
      pteFrame w ∉ pagesOf s.k (l₁ ++ l₂)) ∧
    (InWindow s.k.pmm.cfg (pteFrame w) → el0Write w = false)

/-- Allocated pages are not in the window. -/
lemma not_inWindow_of_allocated {p : Pmm} (h : p.Allocated pa) : ¬ InWindow p.cfg pa := by
  have h1 := h.bounds.2.1
  have h2 := p.cfg.text_le
  simp only [InWindow]
  omega

/-- **Isolation** in every run in which no re-protection makes the window writable. -/
theorem isolated_in_runs {s : Sys} (h : Reach Boot (fun s a => s.Allowed a.2 ∧ s.ForksCopy a ∧
    s.Meets SparesWindow (fun _ _ => True) a) step s) : s.Isolated := by
  obtain ⟨b, ho, hall⟩ := allTasks_reach leaved_property h
  intro l₁ t l₂ hsplit h0 a w hw
  have ht : t ∈ s.queue.all := by
    rw [hsplit]
    exact mem_append_right _ mem_cons_self
  obtain ⟨hsolid, hentry⟩ := hall t ht h0
  -- the pages of the task apart from those of the others
  have hpages : s.k.Owns (taskPages s.k t ++ pagesOf s.k (l₁ ++ l₂)) := by
    have hp := ho.pages.drop_front
    rw [hsplit] at hp
    refine hp.perm ?_
    simp only [pagesOf_append, pagesOf_cons]
    grind
  rcases hentry a w hw with hback | ⟨-, hb, hro⟩
  · have hmem := hback.mem_userPages hsolid (ho.ok t ht)
    have halloc : s.k.pmm.Allocated (pteFrame w) :=
      hpages.2 _ (mem_append_left _ (userPages_mem_taskPages hmem))
    refine ⟨fun _ => ⟨hmem, halloc, fun hin => ?_⟩, fun hwin => ?_⟩
    · exact hpages.ne_of_append (userPages_mem_taskPages hmem) hin rfl
    · exact absurd hwin (not_inWindow_of_allocated halloc)
  · refine ⟨fun hwr => ?_, fun _ => hro⟩
    rw [hro] at hwr
    cases hwr

/-- A task maps a page, writes to it, forks, and makes the page executable. -/
theorem isolated_in_runs_family : ([([], .create true), ([], .yield),
      ([], .call (.mem (.mmap 0 4096 3 0x22 (2 ^ 64 - 1) 0))),
      ([], .call (.access userMmapBase (.store 1))), ([], .fork),
      ([], .call (.mem (.mprotect userMmapBase 4096 7)))].foldl step smallBoot).Isolated :=
  isolated_in_runs (reach_small _ (by decide +kernel))

/-- The current task can write to a page of the window. -/
lemma not_isolated {s : Sys} (a : Nat) (h0 : s.queue.cur.ttbr0 ≠ 0)
    (h : (s.k.leaf s.queue.cur.l0 a).any
      (fun w => decide (InWindow s.k.pmm.cfg (pteFrame w)) && el0Write w) = true) :
    ¬ s.Isolated := by
  intro hiso
  cases hl : s.k.leaf s.queue.cur.l0 a with
  | none =>
    rw [hl] at h
    cases h
  | some w =>
    rw [hl, Option.any_some, Bool.and_eq_true, decide_eq_true_iff] at h
    have hro := (hiso [] _ _ rfl h0 a w hl).2 h.1
    rw [h.2] at hro
    cases hro

/-- One call makes the first page of the kernel's text writable. -/
theorem mprotect_opens_window : ∃ s, Reach Boot (fun s a => s.Allowed a.2) step s ∧ ¬ s.Isolated := by
  refine ⟨_, reach_small [([], .create true), ([], .yield),
    ([], .call (.mem (.mprotect userTextBase 4096 3)))] (by decide +kernel), ?_⟩
  exact not_isolated userTextBase (by decide +kernel) (by decide +kernel)

end Sys
end FermiOs
