import FermiOs.Sched.Fault
import FermiOs.Syscall.Exec
import FermiOs.Syscall.MemRun

/-!
# What a running task can do to its own address space

The calls and accesses of the current task: the memory system calls, `exec`, and user accesses with
the demand paging they lead to. Each of them has one of six effects on the records and the page table
of the task, and everything that is later shown about runs of the whole system rests on
`call_effect`: nothing but new regions without pages, an unmapped range, a re-protected range, a page
of grown stack, a faulted-in page, or a new image.
-/

namespace FermiOs
open Library List Function
variable {a newEnd : Nat} {set : VmaSet} {v : Vma}

/-- A call or an access of the current task. `cached` is an access through a translation the TLB
holds. -/
inductive Call
  | mem (c : MemCall)
  | exec (c : ExecCall)
  | access (va : Nat) (a : Access)
  | cached (va : Nat) (a : Access) (w : Pte)

/-- The call, with whether the task is to be killed. -/
def userCall (k : Kernel) (t : Task) : Call → Bool × Task × Kernel
  | .mem c =>
    let r := memStep (k, t) (k.grants, c)
    (false, r.2, r.1)
  | .exec c =>
    let r := sysExec k t c
    (false, r.2.1, r.2.2)
  | .access va a =>
    match attemptAccess k t va a with
    | (.through w, t, k) => (false, t, a.perform k va w)
    | (.again _, t, k) => (false, t, k)
    | (.killed, t, k) => (true, t, k)
  | .cached va a w =>
    if k.tlb t.asid (va / 4096) w && a.permitted w then (false, t, a.perform k va w)
    else (false, t, k)

/-! ## The six effects -/

/-- Tables and pages stay; the regions may be cut differently, and `[lo, hi)` may have been added
with no page in it. -/
structure Rerecorded (k : Kernel) (t : Task) (lo hi prot flags : Nat) (k' : Kernel) (t' : Task) :
    Prop where
  step : LocalStep k t k' t'
  tables : ∀ l, k.pmm.Allocated l → k'.tables l = k.tables l
  task : t' = { t with vmas := t'.vmas, brkCur := t'.brkCur }
  ok : AllOk t'.vmas
  holds : ∀ a g, vmaSeg.Holds t'.vmas a g ↔
    vmaSeg.Holds t.vmas a g ∨ (lo ≤ a ∧ a < hi ∧ g = (prot, flags, 0))

/-- The range was unmapped. -/
structure Unmapped (k : Kernel) (t : Task) (addr end_ : Nat) (k' : Kernel) (t' : Task) : Prop where
  step : LocalStep k t k' t'
  user : t.ttbr0 ≠ 0
  task : t' = { t with vmas := t'.vmas }
  ok : AllOk t'.vmas
  aligned : addr % 4096 = 0 ∧ end_ % 4096 = 0 ∧ addr < end_
  leaf : ∀ a, k'.leaf t.l0 a = if InPages addr ((end_ - addr) / 4096) a then none else k.leaf t.l0 a
  kept : ∀ a g, vmaSeg.Holds t'.vmas a g → vmaSeg.Holds t.vmas a g
  lost : ∀ a g, vmaSeg.Holds t.vmas a g → vmaSeg.Holds t'.vmas a g ∨ addr ≤ a ∧ a < end_
  range : ∃ n k1, vmaUnmapRange k t.vmas addr end_ = (some n, t'.vmas, k1)

/-- The range was re-protected. -/
structure Reprotected (k : Kernel) (t : Task) (addr end_ prot : Nat) (k' : Kernel) (t' : Task) :
    Prop where
  step : LocalStep k t k' t'
  user : t.ttbr0 ≠ 0
  task : t' = { t with vmas := t'.vmas }
  ok : AllOk t'.vmas
  aligned : addr % 4096 = 0 ∧ end_ % 4096 = 0 ∧ addr < end_
  leaf : ∀ a, k'.leaf t.l0 a = if InPages addr ((end_ - addr) / 4096) a then
    (k.leaf t.l0 a).map (protectPte · (mmuProtToFlags prot)) else k.leaf t.l0 a
  pages : ∀ a p, (∃ g h, vmaSeg.Holds t'.vmas a (g, h, p)) ↔ ∃ g h, vmaSeg.Holds t.vmas a (g, h, p)
  range : ∃ n k1, vmaProtectRange k t.vmas addr end_ prot = (some n, t'.vmas, k1)

/-- The range a call adds to the regions of a task. -/
def Call.Adds (k : Kernel) (t : Task) (lo hi : Nat) : Call → Prop
  | .mem (.mmap addr length _ flags _ _) => mmapPlace t.vmas addr length flags = .ok (lo, hi)
  | .mem (.brk addr) => BrkAccepted t addr ∧ hi = pageAlignUp addr ∧
      (vmaFind t.vmas t.brkCur = none ∧ lo = t.brkBase ∨ ∃ v, BrkExtends k t addr v ∧ lo = v.end_)
  | _ => False

/-- What a call of a task does to it. -/
inductive Effect (k : Kernel) (t : Task) (c : Call) (k' : Kernel) (t' : Task) : Prop
  | rerecorded (lo hi prot flags : Nat) (hadd : lo < hi → c.Adds k t lo hi)
      (h : Rerecorded k t lo hi prot flags k' t')
  | unmapped (addr length end_ : Nat) (hc : c = .mem (.munmap addr length))
      (hend : rangeEnd addr length = some end_) (h : Unmapped k t addr end_ k' t')
  | reprotected (addr length end_ prot : Nat) (hc : c = .mem (.mprotect addr length prot))
      (hend : rangeEnd addr length = some end_) (h : Reprotected k t addr end_ prot k' t')
  | grown (far pa : Nat) (mapped : Bool) (hnone : k.leaf t.l0 far = none)
      (h : StackGrown k t far pa mapped t' k')
  | faulted (far pa : Nat) (v : Vma) (mapped : Bool) (hnone : k.leaf t.l0 far = none)
      (h : FaultedIn k t far v pa mapped t' k')
  | execed (h : Execed k t k' t')

/-! ## Calls that only rewrite records -/

section
variable {k k' k1 : Kernel} {t : Task}

/-- Regions that record the same pages. -/
lemma userPages_vmas (hp : (vmaSlots set).Perm (vmaSlots t.vmas)) (brk : Nat) :
    (Task.userPages { t with vmas := set, brkCur := brk }).Perm t.userPages := by
  exact List.Perm.append_left _ (List.Perm.append_left _ (List.Perm.append_left _ (hp.append_right _)))

/-- Heap growth and an errno store, with the records rewritten. -/
lemma LocalStep.of_heap (hh : HeapStep k k1) (he : ErrnoStep t k1 k')
    (hp : (vmaSlots set).Perm (vmaSlots t.vmas)) (brk : Nat) :
    LocalStep k t k' { t with vmas := set, brkCur := brk } ∧ k'.tables = k.tables := by
  have hq : LocalStep k t k1 { t with vmas := set, brkCur := brk } :=
    hh.quiet.local rfl rfl (userPages_vmas hp brk)
  obtain ⟨⟨p, gs, -, rfl⟩, -⟩ := hh
  obtain ⟨frame, -, rfl⟩ := he.pmm
  exact ⟨⟨hq.owns, hq.tables, hq.tlb, hq.cfg, hq.asid⟩, rfl⟩

/-- The regions were cut differently. -/
lemma Rerecorded.of_recut (hok : AllOk t.vmas) (hh : HeapStep k k1) (he : ErrnoStep t k1 k')
    (hcut : Recut t.vmas set) (brk : Nat) :
    Rerecorded k t 0 0 0 0 k' { t with vmas := set, brkCur := brk } := by
  obtain ⟨hl, ht⟩ := LocalStep.of_heap hh he (hcut.slots hok) brk
  refine ⟨hl, fun l _ => by rw [ht], rfl, hcut.ok hok, fun a g => ?_⟩
  rw [hcut.holds hok]
  exact ⟨.inl, fun h => h.resolve_right fun h => absurd h.2.1 (Nat.not_lt_zero a)⟩

/-- A region without pages was added. -/
lemma Rerecorded.of_insert (hok : AllOk t.vmas) (hh : HeapStep k k') {start end_ : Nat}
    (prot flags : Nat) (hadd : AddOk t.vmas start end_) (brk : Nat) :
    Rerecorded k t start end_ prot flags k'
      { t with vmas := vmaInsertSorted t.vmas (freshVma start end_ prot flags), brkCur := brk } := by
  have hperm := vmaInsertSorted_perm t.vmas (freshVma start end_ prot flags)
  have hslots : (vmaSlots (vmaInsertSorted t.vmas (freshVma start end_ prot flags))).Perm
      (vmaSlots t.vmas) := by
    have := vmaSlots_perm hperm
    rwa [vmaSlots_cons, slots_freshVma, nil_append] at this
  obtain ⟨hl, ht⟩ := LocalStep.of_heap (t := t) hh (.inl rfl) hslots brk
  refine ⟨hl, fun l _ => by rw [ht], rfl, ?_, fun a g => ?_⟩
  · exact AllOk.perm (allOk_cons.mpr ⟨hadd.fresh prot flags, hok⟩) hperm.symm
  · rw [vmaSeg.holds_perm hperm, vmaSeg.holds_cons, or_comm]
    refine or_congr Iff.rfl ?_
    simp only [SegKind.Covers, vmaSeg, slot_freshVma]
    exact ⟨fun h => ⟨h.1.1, h.1.2, h.2.symm⟩, fun h => ⟨⟨h.1, h.2.1⟩, h.2.2.symm⟩⟩

/-- The pages of a region that grew are the pages it had. -/
lemma slots_growTo (hv : VmaOk v) (hal : newEnd % 4096 = 0) (hlt : v.end_ < newEnd) :
    (v.growTo newEnd).slots = v.slots := by
  have hlen : (v.growTo newEnd).pages.length = (v.growTo newEnd).npages := by
    obtain ⟨-, h2, h3, h4⟩ := hv
    simp only [Vma.npages, Vma.growTo, length_append, length_take, length_replicate] at *
    omega
  have hzero : (replicate ((newEnd - v.end_) / 4096) 0).filter (· ≠ 0) = ([] : List Nat) := by
    simp
  rw [Vma.slots, ← hlen, take_length]
  show List.filter _ (v.pages.take v.npages ++ replicate _ 0) = _
  rw [filter_append, hzero, append_nil, Vma.slots]

lemma slot_growTo (hv : VmaOk v) (ha : v.start ≤ a) :
    (v.growTo newEnd).slot a = if a < v.end_ then v.slot a else 0 := by
  obtain ⟨h1, h2, -, h4⟩ := hv
  have hlen : (v.pages.take v.npages).length = v.npages := by
    rw [length_take]
    omega
  simp only [Vma.slot, Vma.growTo, getD_eq_getElem?_getD]
  by_cases h : a < v.end_
  · have hidx : (a - v.start) / 4096 < v.npages := by
      simp only [Vma.npages]
      omega
    rw [if_pos h, getElem?_append_left (by omega), getElem?_take, if_pos hidx]
  have hidx : v.npages ≤ (a - v.start) / 4096 := by
    simp only [Vma.npages]
    omega
  rw [if_neg h, getElem?_append_right (by omega), getElem?_replicate]
  split <;> rfl

/-- The region at the break grew in place. -/
lemma Rerecorded.of_grow (hok : AllOk t.vmas) (hh : HeapStep k k') {va : Nat}
    (hfind : vmaFind t.vmas va = some v) (hal : newEnd % 4096 = 0) (hlt : v.end_ < newEnd)
    (brk : Nat) :
    Rerecorded k t v.end_ newEnd v.prot v.flags k'
      { t with vmas := vmaModify t.vmas va (·.growTo newEnd), brkCur := brk } := by
  obtain ⟨l, r, hset, -, hmod⟩ := vmaModify_split hfind
  have hv : VmaOk v := hok v (by rw [hset]; simp)
  have hperm : t.vmas.Perm (v :: (l ++ r)) := by
    rw [hset]
    exact perm_middle
  have hperm' : (vmaModify t.vmas va (·.growTo newEnd)).Perm (v.growTo newEnd :: (l ++ r)) := by
    rw [hmod]
    exact perm_middle
  have hslots : (vmaSlots (vmaModify t.vmas va (·.growTo newEnd))).Perm (vmaSlots t.vmas) := by
    have h1 := vmaSlots_perm hperm'
    have h2 := vmaSlots_perm hperm
    rw [vmaSlots_cons, slots_growTo hv hal hlt] at h1
    exact h1.trans h2.symm
  obtain ⟨hl, ht⟩ := LocalStep.of_heap (t := t) hh (.inl rfl) hslots brk
  refine ⟨hl, fun l _ => by rw [ht], rfl, ?_, fun a g => ?_⟩
  · obtain ⟨-, hrest⟩ := allOk_cons.mp (hok.perm hperm)
    exact AllOk.perm (allOk_cons.mpr ⟨vmaOk_growTo hv hal hlt, hrest⟩) hperm'.symm
  rw [vmaSeg.holds_perm hperm', vmaSeg.holds_perm hperm, vmaSeg.holds_cons, vmaSeg.holds_cons]
  have hval : v.start ≤ a → vmaSeg.val (v.growTo newEnd) a =
      (v.prot, v.flags, if a < v.end_ then v.slot a else 0) := by
    intro ha
    show (v.prot, v.flags, (v.growTo newEnd).slot a) = _
    rw [slot_growTo hv ha]
  have hcov : vmaSeg.Covers (v.growTo newEnd) a ↔ v.start ≤ a ∧ a < newEnd := Iff.rfl
  have hcov' : vmaSeg.Covers v a ↔ v.start ≤ a ∧ a < v.end_ := Iff.rfl
  have hne := hv.nonempty
  constructor
  · rintro (⟨hc, hg⟩ | hr)
    · rw [hcov] at hc
      rw [hval hc.1] at hg
      by_cases ha : a < v.end_
      · rw [if_pos ha] at hg
        exact .inl (.inl ⟨hcov'.mpr ⟨hc.1, ha⟩, hg⟩)
      · rw [if_neg ha] at hg
        exact .inr ⟨not_lt.mp ha, hc.2, hg.symm⟩
    · exact .inl (.inr hr)
  rintro ((⟨hc, hg⟩ | hr) | ⟨hlo, hhi, hg⟩)
  · rw [hcov'] at hc
    refine .inl ⟨hcov.mpr ⟨hc.1, by omega⟩, ?_⟩
    rw [hval hc.1, if_pos hc.2]
    exact hg
  · exact .inr hr
  · refine .inl ⟨hcov.mpr ⟨by omega, hhi⟩, ?_⟩
    rw [hval (by omega), if_neg (not_lt.mpr hlo), hg]

end

/-! ## Unmapping and re-protecting -/

section
variable {k k' k1 : Kernel} {t : Task} {addr end_ prot n : Nat}

lemma holds_filter {xs : VmaSet} {p : Vma → Bool} {g : Nat × Nat × Nat}
    (h : vmaSeg.Holds (xs.filter p) a g) : vmaSeg.Holds xs a g := by
  obtain ⟨v, hv, hc⟩ := h
  exact ⟨v, (mem_filter.mp hv).1, hc⟩

/-- The regions inside a range and the others. -/
lemma inside_perm (xs : VmaSet) (addr end_ : Nat) :
    (vmaSlots xs).Perm (vmaSlots (xs.filter fun v => decide (Inside addr end_ v)) ++
      vmaSlots (xs.filter fun v => decide (¬ Inside addr end_ v))) := by
  rw [vmaSlots, vmaSlots, vmaSlots, ← flatMap_append]
  refine List.Perm.flatMap_right _ ?_
  have := filter_append_perm (fun v => decide (Inside addr end_ v)) xs
  simpa only [decide_not] using this.symm

/-- Unmapping a range of the set releases pages of the range only. -/
lemma vmaUnmapRange_local (hok : AllOk t.vmas)
    (h : vmaUnmapRange k t.vmas addr end_ = (some n, set, k1)) :
    Kernel.PmmStep k k1 ∧ AllOk set ∧
      (∀ F, k.Owns (t.userPages ++ F) → k1.Owns (Task.userPages { t with vmas := set } ++ F)) ∧
      (∀ a g, vmaSeg.Holds set a g → vmaSeg.Holds t.vmas a g) ∧
      ∀ a g, vmaSeg.Holds t.vmas a g → vmaSeg.Holds set a g ∨ addr ≤ a ∧ a < end_ := by
  rcases vmaUnmapRange_cases h with ⟨hr, -⟩ | ⟨k0, set1, hs1, hcut, -, -, hs2, hmerge⟩
  · cases hr
  have hok1 := hcut.ok hok
  have hok2 : AllOk (set1.filter fun v => decide (¬ Inside addr end_ v)) :=
    fun v hv => hok1 v (mem_filter.mp hv).1
  refine ⟨(hs1.1.trans (Kernel.pmmFreeList_step _ _)).trans hs2.1, hmerge.ok hok2, fun F hF => ?_,
    fun a g hg => ?_, fun a g hg => ?_⟩
  · -- the pages that are freed come to the front
    have hperm : (t.userPages ++ F).Perm
        (vmaSlots (set1.filter fun v => decide (Inside addr end_ v)) ++
          (Task.userPages { t with vmas := set } ++ F)) := by
      have hslots := (hcut.slots hok).symm.trans (inside_perm set1 addr end_)
      rw [← hmerge.slots hok2] at hslots
      simp only [Task.userPages, Task.imagePages, Task.grownPages]
      grind
    exact hs2.owns (Kernel.Owns.free ((hs1.owns hF).perm hperm))
  · exact (hcut.holds hok a g).mp (holds_filter ((hmerge.holds hok2 a g).mp hg))
  obtain ⟨v, hv, hc, hval⟩ := (hcut.holds hok a g).mpr hg
  by_cases hin : Inside addr end_ v
  · exact .inr ⟨hin.1.trans hc.1, lt_of_lt_of_le hc.2 hin.2⟩
  · exact .inl ((hmerge.holds hok2 a g).mpr ⟨v, mem_filter.mpr ⟨hv, decide_eq_true hin⟩, hc, hval⟩)

lemma Unmapped.of_range (hok : AllOk t.vmas) (huser : t.ttbr0 ≠ 0) (hl0 : t.l0 ≠ 0)
    (hal : addr % 4096 = 0 ∧ end_ % 4096 = 0 ∧ addr < end_)
    (h : vmaUnmapRange k t.vmas addr end_ = (some n, set, k1)) :
    Unmapped k t addr end_ (k1.mmuUnmapUserRange t.l0 addr ((end_ - addr) / 4096))
      { t with vmas := set } := by
  obtain ⟨hs, hok', hown, hkept, hlost⟩ := vmaUnmapRange_local hok h
  obtain ⟨pt, tlb, htabs, htlb, hleaf, heq⟩ := k1.mmuUnmapUserRange_spec hl0 addr ((end_ - addr) / 4096)
  have hk : k1.tables = k.tables ∧ k1.tlb = k.tlb ∧ k1.frame = k.frame := by
    obtain ⟨p, gs, -, rfl⟩ := hs
    exact ⟨rfl, rfl, rfl⟩
  rw [hk.1] at htabs
  rw [hk.2.1] at htlb
  have hstep : LocalStep k t _ { t with vmas := set } :=
    local_edit hs hown htabs htlb k1.frame rfl rfl rfl
  rw [heq]
  refine ⟨hstep, huser, rfl, hok', hal, fun a => ?_, hkept, hlost, n, k1, h⟩
  show (update k1.tables t.l0 pt t.l0).leaf a = _
  rw [update_self, hleaf, Kernel.leaf, Kernel.leaf, hk.1]

lemma protectInside_covers (addr end_ prot : Nat) (v : Vma) (a : Nat) :
    (vmaSeg.Covers (protectInside addr end_ prot v) a ↔ vmaSeg.Covers v a) ∧
      (vmaSeg.val (protectInside addr end_ prot v) a).2 = (vmaSeg.val v a).2 := by
  unfold protectInside
  split <;> exact ⟨Iff.rfl, rfl⟩

lemma slots_protectInside (addr end_ prot : Nat) (v : Vma) :
    (protectInside addr end_ prot v).slots = v.slots := by
  unfold protectInside
  split <;> rfl

lemma vmaOk_protectInside (hv : VmaOk v) (addr end_ prot : Nat) :
    VmaOk (protectInside addr end_ prot v) := by
  unfold protectInside
  split
  · exact ⟨hv.start_aligned, hv.end_aligned, hv.nonempty, hv.array_len⟩
  · exact hv

/-- Re-protecting a range of the set keeps its pages. -/
lemma vmaProtectRange_local (hok : AllOk t.vmas)
    (h : vmaProtectRange k t.vmas addr end_ prot = (some n, set, k1)) :
    HeapStep k k1 ∧ AllOk set ∧ (vmaSlots set).Perm (vmaSlots t.vmas) ∧
      ∀ a p, (∃ g h, vmaSeg.Holds set a (g, h, p)) ↔ ∃ g h, vmaSeg.Holds t.vmas a (g, h, p) := by
  obtain ⟨hs, ⟨hr, -⟩ | ⟨-, set1, hcut, -, -, hmerge⟩⟩ := vmaProtectRange_cases h
  · cases hr
  have hok1 := hcut.ok hok
  have hok2 : AllOk (set1.map (protectInside addr end_ prot)) := by
    intro v hv
    obtain ⟨w, hw, rfl⟩ := mem_map.mp hv
    exact vmaOk_protectInside (hok1 w hw) addr end_ prot
  have hslots : vmaSlots (set1.map (protectInside addr end_ prot)) = vmaSlots set1 := by
    rw [vmaSlots, flatMap_map, vmaSlots]
    exact flatMap_congr fun v _ => slots_protectInside addr end_ prot v
  refine ⟨hs, hmerge.ok hok2, ?_, fun a p => ⟨?_, ?_⟩⟩
  · rw [hmerge.slots hok2, hslots]
    exact hcut.slots hok
  · rintro ⟨g, h, hg⟩
    obtain ⟨v, hv, hc, hval⟩ := (hmerge.holds hok2 a _).mp hg
    obtain ⟨w, hw, rfl⟩ := mem_map.mp hv
    obtain ⟨hcov, hsnd⟩ := protectInside_covers addr end_ prot w a
    refine ⟨(vmaSeg.val w a).1, h, (hcut.holds hok a _).mp ⟨w, hw, hcov.mp hc, ?_⟩⟩
    rw [← Prod.mk.eta (p := vmaSeg.val w a), ← hsnd, hval]
  rintro ⟨g, h, hg⟩
  obtain ⟨w, hw, hc, hval⟩ := (hcut.holds hok a _).mpr hg
  obtain ⟨hcov, hsnd⟩ := protectInside_covers addr end_ prot w a
  refine ⟨(vmaSeg.val (protectInside addr end_ prot w) a).1, h, (hmerge.holds hok2 a _).mpr
    ⟨_, mem_map_of_mem hw, hcov.mpr hc, ?_⟩⟩
  rw [← Prod.mk.eta (p := vmaSeg.val (protectInside addr end_ prot w) a), hsnd, hval]

lemma Reprotected.of_range (hok : AllOk t.vmas) (huser : t.ttbr0 ≠ 0) (hl0 : t.l0 ≠ 0)
    (hal : addr % 4096 = 0 ∧ end_ % 4096 = 0 ∧ addr < end_)
    (h : vmaProtectRange k t.vmas addr end_ prot = (some n, set, k1)) :
    Reprotected k t addr end_ prot
      (k1.mmuProtectUserRange t.l0 addr ((end_ - addr) / 4096) (mmuProtToFlags prot)).2
      { t with vmas := set } := by
  obtain ⟨hs, hok', hslots, hpages⟩ := vmaProtectRange_local hok h
  obtain ⟨pt, tlb, htabs, htlb, hleaf, heq⟩ :=
    k1.mmuProtectUserRange_spec hl0 addr ((end_ - addr) / 4096) (mmuProtToFlags prot)
  have hk : k1.tables = k.tables ∧ k1.tlb = k.tlb := by
    obtain ⟨⟨p, gs, -, rfl⟩, -⟩ := hs
    exact ⟨rfl, rfl⟩
  rw [hk.1] at htabs
  rw [hk.2] at htlb
  have hown : ∀ F, k.Owns (t.userPages ++ F) →
      k1.Owns (Task.userPages { t with vmas := set } ++ F) := by
    intro F hF
    exact (hs.owns hF).perm ((userPages_vmas hslots t.brkCur).symm.append_right F)
  have hstep : LocalStep k t _ { t with vmas := set } :=
    local_edit hs.1 hown htabs htlb k1.frame rfl rfl rfl
  rw [heq]
  refine ⟨hstep, huser, rfl, hok', hal, fun a => ?_, hpages, n, k1, h⟩
  show (update k1.tables t.l0 pt t.l0).leaf a = _
  rw [update_self, hleaf, Kernel.leaf, Kernel.leaf, hk.1]

end

/-! ## Every call -/

section
variable {k k' : Kernel} {t t' : Task} {c : Call}

section
variable (hok : AllOk t.vmas)
include hok

/-- Nothing happened to the records; at most heap pages were taken and errno stored. -/
lemma Effect.of_heap {k1 : Kernel} (hh : HeapStep k k1) (he : ErrnoStep t k1 k') : Effect k t c k' t :=
  .rerecorded 0 0 0 0 (fun h => absurd h (lt_irrefl 0)) (.of_recut hok hh he (.refl _) t.brkCur)

/-- The regions were at most cut. -/
lemma Effect.of_onlyCut {r : Int} (h : OnlyCut k t r t' k') : Effect k t c k' t' := by
  obtain ⟨set, k1, hh, hcut, rfl, hans⟩ := h
  have he : ErrnoStep t k1 k' := hans.imp And.right fun ⟨_, err, _, he⟩ => ⟨err, he⟩
  exact .rerecorded 0 0 0 0 (fun h => absurd h (lt_irrefl 0)) (.of_recut hok hh he hcut t.brkCur)

/-- **The memory system calls.** -/
lemma memStep_effect {c : MemCall} (huser : t.ttbr0 ≠ 0) (hl0 : t.l0 ≠ 0)
    (h : memStep (k, t) (k.grants, c) = (k', t')) : Effect k t (.mem c) k' t' := by
  have hk : k.answering k.grants = k := rfl
  cases c with
  | mmap addr length prot flags fd offset =>
    rcases hr : sysMmap k t addr length prot flags fd offset with ⟨r, t1, k1⟩
    simp only [memStep, hk, hr] at h
    cases h
    obtain ⟨-, rfl, k1, hh, err, -, he⟩ | ⟨start, end_, set, -, -, hplace, hadd, -, rfl⟩ :=
      sysMmap_cases hr
    · exact .of_heap hok hh (.inr ⟨err, he⟩)
    · obtain ⟨hadded, rfl⟩ := vmaAdd_some hadd
      exact .rerecorded _ _ _ _ (fun _ => hplace)
        (.of_insert hok (vmaAdd_heapStep hadd) _ _ hadded t.brkCur)
  | munmap addr length =>
    rcases hr : sysMunmap k t addr length with ⟨r, t1, k1⟩
    simp only [memStep, hk, hr] at h
    cases h
    obtain hcut | ⟨end_, n, set, k1, -, hal, hlen, hend, hun, -, rfl, rfl⟩ := sysMunmap_cases hr
    · exact .of_onlyCut hok hcut
    · obtain ⟨h1, h2, -⟩ := rangeEnd_some hend hal hlen
      exact .unmapped _ _ _ rfl hend (.of_range hok huser hl0 ⟨hal, h1, h2⟩ hun)
  | mprotect addr length prot =>
    rcases hr : sysMprotect k t addr length prot with ⟨r, t1, k1⟩
    simp only [memStep, hk, hr] at h
    cases h
    obtain hcut | ⟨end_, n, set, k1, -, hal, hlen, -, hend, hpr, -, rfl, rfl⟩ := sysMprotect_cases hr
    · exact .of_onlyCut hok hcut
    · obtain ⟨h1, h2, -⟩ := rangeEnd_some hend hal hlen
      exact .reprotected _ _ _ _ rfl hend (.of_range hok huser hl0 ⟨hal, h1, h2⟩ hpr)
  | brk addr =>
    rcases hr : sysBrk k t addr with ⟨r, t1, k1⟩
    simp only [memStep, hk, hr] at h
    cases h
    obtain ⟨hh, rfl | ⟨hacc, set, rfl, rfl | ⟨hnone, hadd⟩ | ⟨v, hext, rfl⟩⟩⟩ := sysBrk_cases hr
    · exact .of_heap hok hh (.inl rfl)
    · exact .rerecorded _ _ _ _ (fun h => absurd h (lt_irrefl 0))
        (.of_recut hok hh (.inl rfl) (.refl _) addr)
    · obtain ⟨hadded, rfl⟩ := vmaAdd_some hadd
      exact .rerecorded _ _ _ _ (fun _ => ⟨hacc, rfl, .inl ⟨hnone, rfl⟩⟩)
        (.of_insert hok hh _ _ hadded addr)
    · exact .rerecorded _ _ _ _ (fun _ => ⟨hacc, rfl, .inr ⟨v, hext, rfl⟩⟩)
        (.of_grow hok hh hext.2.1 (pageAlignUp_aligned addr) hext.2.2.1 addr)

/-- A step that no record and no table notices. -/
lemma Effect.of_quiet (hq : QuietStep k k') : Effect k t c k' t := by
  refine .rerecorded 0 0 0 0 (fun h => absurd h (lt_irrefl 0)) ⟨hq.local rfl rfl (List.Perm.refl _), hq.tables, rfl, hok, fun a g => ?_⟩
  exact ⟨.inl, fun h => h.resolve_right fun h => absurd h.2.1 (Nat.not_lt_zero a)⟩

/-- An access that goes through changes page contents only. -/
lemma Effect.of_perform (va : Nat) (a : Access) (w : Pte) : Effect k t c (a.perform k va w) t := by
  have hframe : ∃ frame, a.perform k va w = { k with frame := frame } := by
    cases a with
    | load => exact ⟨k.frame, rfl⟩
    | store byte => exact ⟨_, rfl⟩
    | fetch => exact ⟨k.frame, rfl⟩
  obtain ⟨frame, heq⟩ := hframe
  rw [heq]
  refine .rerecorded 0 0 0 0 (fun h => absurd h (lt_irrefl 0)) ⟨⟨fun F hF => hF, fun _ _ _ => rfl, fun _ _ _ hw => hw, rfl,
    fun ha => ha⟩, fun _ _ => rfl, rfl, hok, fun a g => ?_⟩
  exact ⟨.inl, fun h => h.resolve_right fun h => absurd h.2.1 (Nat.not_lt_zero a)⟩

/-- **What a call can do.** -/
lemma call_effect {b : Bool} (huser : t.ttbr0 ≠ 0)
    (hl0 : t.l0 ≠ 0) (h : userCall k t c = (b, t', k')) : Effect k t c k' t' := by
  cases c with
  | mem c =>
    rcases hr : memStep (k, t) (k.grants, c) with ⟨k1, t1⟩
    simp only [userCall, hr] at h
    cases h
    exact memStep_effect hok huser hl0 hr
  | exec c =>
    rcases hr : sysExec k t c with ⟨r, t1, k1⟩
    simp only [userCall, hr] at h
    cases h
    obtain ⟨-, rfl, hq, -⟩ | ⟨-, hex⟩ := sysExec_cases hr
    · exact .of_quiet hok hq
    · exact .execed hex
  | access va a =>
    rcases hr : attemptAccess k t va a with ⟨o, t1, k1⟩
    simp only [userCall, hr] at h
    obtain ⟨w, rfl, -, rfl, rfl⟩ | ⟨rfl, rfl, hd⟩ | ⟨mapped, rfl, hnone, ⟨pa, hg⟩ | ⟨v, pa, hf⟩⟩ :=
      attemptAccess_cases hr
    · cases h
      exact .of_perform hok va a w
    · cases h
      exact .of_quiet hok hd.quiet
    · cases h
      exact .grown va pa mapped hnone hg
    · cases h
      exact .faulted va pa v mapped hnone hf
  | cached va a w =>
    rw [userCall] at h
    split at h
    · cases h
      exact .of_perform hok va a w
    · cases h
      exact .of_quiet hok (.refl k)

end

/-- A task that is killed was not changed before. -/
lemma userCall_killed (h : userCall k t c = (true, t', k')) : t' = t := by
  cases c with
  | mem c =>
    cases h
  | exec c =>
    cases h
  | access va a =>
    rcases hr : attemptAccess k t va a with ⟨o, t1, k1⟩
    simp only [userCall, hr] at h
    obtain ⟨w, rfl, -⟩ | ⟨rfl, rfl, -⟩ | ⟨mapped, rfl, -⟩ := attemptAccess_cases hr
    · cases h
    · cases h
      rfl
    · cases h
  | cached va a w =>
    rw [userCall] at h
    split at h
    · cases h
    · cases h

/-- Every effect accounts for the pages of the task. -/
lemma Effect.local (hok : AllOk t.vmas) (h : Effect k t c k' t') : LocalStep k t k' t' := by
  cases h with
  | rerecorded lo hi prot flags hadd h => exact h.step
  | unmapped addr length end_ hc hend h => exact h.step
  | reprotected addr length end_ prot hc hend h => exact h.step
  | grown far pa mapped hnone h => exact h.local
  | faulted far pa v mapped hnone h => exact h.local hok
  | execed h => exact h.step

lemma Effect.allOk (hok : AllOk t.vmas) (h : Effect k t c k' t') : AllOk t'.vmas := by
  cases h with
  | rerecorded lo hi prot flags hadd h => exact h.ok
  | unmapped addr length end_ hc hend h => exact h.ok
  | reprotected addr length end_ prot hc hend h => exact h.ok
  | grown far pa mapped hnone h =>
    rw [h.task]
    exact hok
  | faulted far pa v mapped hnone h => exact h.allOk hok
  | execed h =>
    rw [h.records.1]
    exact forall_mem_nil _

/-- Only `exec` gives a task another root; a user task stays one. -/
lemma Effect.ttbr0 (h : Effect k t c k' t') : t'.ttbr0 = t.ttbr0 ∨ Execed k t k' t' := by
  cases h with
  | rerecorded lo hi prot flags hadd h =>
    rw [h.task]
    exact .inl rfl
  | unmapped addr length end_ hc hend h =>
    rw [h.task]
    exact .inl rfl
  | reprotected addr length end_ prot hc hend h =>
    rw [h.task]
    exact .inl rfl
  | grown far pa mapped hnone h =>
    rw [h.task]
    exact .inl rfl
  | faulted far pa v mapped hnone h =>
    rw [h.task]
    exact .inl rfl
  | execed h => exact .inr h

lemma Effect.user (h : Effect k t c k' t') (huser : t.ttbr0 ≠ 0) : t'.ttbr0 ≠ 0 := by
  rcases h.ttbr0 with heq | hex
  · rw [heq]
    exact huser
  · exact hex.user

end
end FermiOs
