import FermiOs.Library.Run
import FermiOs.Mm.VmaMap
import FermiOs.Syscall.Mem

/-!
# Runs of memory system calls

A task issues `mmap`, `munmap`, `mprotect` and `brk` in any order and with any arguments; every call
meets its own pattern of allocation failures. Two properties are followed through such runs.

The VMA set stays well-formed as long as no `brk` grows the heap over another region, and the first
`brk` that does so breaks it: `vmas_wf_iff_brk_clear`. The pages below the break stay covered by
readable and writable regions as long as every growth finds the heap region at the break or is the
first one, and the first growth that does not uncovers the break: `brk_covered_iff`.
-/

namespace FermiOs
open Library List
variable {base prot : Nat} {k : Kernel} {r : Option Nat} {s : Kernel × Task} {t : Task}

/-- A memory system call with its argument registers. -/
inductive MemCall
  | mmap (addr length prot flags fd offset : Nat)
  | munmap (addr length : Nat)
  | mprotect (addr length prot : Nat)
  | brk (addr : Nat)

/-- The kernel with the answers the allocators will give during one call. -/
def Kernel.answering (k : Kernel) (gs : List Grant) : Kernel := { k with grants := gs }

/-- One call of the task, under one pattern of allocation failures. -/
def memStep (s : Kernel × Task) (a : List Grant × MemCall) : Kernel × Task :=
  let k := s.1.answering a.1
  let r := match a.2 with
    | .mmap addr length prot flags fd offset => sysMmap k s.2 addr length prot flags fd offset
    | .munmap addr length => sysMunmap k s.2 addr length
    | .mprotect addr length prot => sysMprotect k s.2 addr length prot
    | .brk addr => sysBrk k s.2 addr
  (r.2.2, r.2.1)

/-- A task as `sched_create_task` leaves it: no region, the break at the base of the arena. -/
def MemStart (s : Kernel × Task) : Prop :=
  s.2.vmas = [] ∧ s.2.brkBase = userBrkBase ∧ s.2.brkCur = userBrkBase

/-! ## Well-formed sets -/

lemma VmaWf.nil : VmaWf [] :=
  ⟨by decide, List.Pairwise.nil, forall_mem_nil _, List.Pairwise.nil⟩

variable {end_ newEnd start : Nat} {k' : Kernel} {set set' : VmaSet} {v : Vma}

section
variable (h : VmaWf set)
include h

/-- A region that overlaps none may be inserted while there is room. -/
lemma VmaWf.insert (hlen : set.length < vmaMaxPerTask) (hv : VmaOk v)
    (hov : ∀ w ∈ set, w.end_ ≤ v.start ∨ v.end_ ≤ w.start) :
    VmaWf (vmaInsertSorted set v) := by
  have hp := vmaInsertSorted_perm set v
  refine ⟨?_, vmaInsertSorted_sorted v h.sorted, AllOk.perm ?_ hp.symm, SegKind.Apart.perm _ ?_ hp.symm⟩
  · have := hp.length_eq
    simp only [length_cons] at this
    omega
  · exact allOk_cons.mpr ⟨hv, h.ok⟩
  · refine pairwise_cons.mpr ⟨fun w hw => ?_, h.apart⟩
    exact (hov w hw).symm

/-- A successful `vma_add` keeps a set well-formed. -/
lemma VmaWf.add {flags : Nat} (hadd : vmaAdd k set start end_ prot flags = (some set', k')) :
    VmaWf set' := by
  obtain ⟨hok, rfl⟩ := vmaAdd_some hadd
  exact h.insert hok.room (hok.fresh prot flags) hok.apart

lemma VmaWf.unmap (hun : vmaUnmapRange k set start end_ = (r, set', k')) : VmaWf set' := by
  obtain ⟨-, -, hcut⟩ | ⟨k1, set1, -, hcut, -, -, -, hmerge⟩ := vmaUnmapRange_cases hun
  · exact hcut.wf h
  · exact hmerge.recut.wf ((hcut.wf h).sublist filter_sublist)

lemma VmaWf.protectRange (hpr : vmaProtectRange k set start end_ prot = (r, set', k')) :
    VmaWf set' := by
  obtain ⟨-, ⟨-, hcut⟩ | ⟨-, set1, hcut, -, -, hmerge⟩⟩ := vmaProtectRange_cases hpr
  · exact hcut.wf h
  · exact hmerge.recut.wf ((hcut.wf h).protect start end_ prot)

end

lemma vmaOk_growTo (hv : VmaOk v) (hal : newEnd % 4096 = 0) (hlt : v.end_ < newEnd) :
    VmaOk (v.growTo newEnd) := by
  obtain ⟨h1, h2, h3, h4⟩ := hv
  refine ⟨h1, hal, by simp only [Vma.growTo]; omega, ?_⟩
  simp only [Vma.npages, Vma.growTo, length_append, length_take, length_replicate] at *
  omega

lemma pageAlignUp_aligned (a : Nat) : pageAlignUp a % 4096 = 0 := by
  simp [pageAlignUp]

/-- No region other than `v` meets the pages `[v.end_, newEnd)`. -/
def GrowthClear (set : VmaSet) (v : Vma) (newEnd : Nat) : Prop :=
  ∀ w ∈ set, w ≠ v → w.end_ ≤ v.end_ ∨ newEnd ≤ w.start

/-- Growing a region of a well-formed set in place keeps it well-formed exactly when the pages added
are free. -/
lemma VmaWf.grow_iff {va : Nat} (h : VmaWf set) (hfind : vmaFind set va = some v)
    (hal : newEnd % 4096 = 0) (hlt : v.end_ < newEnd) :
    VmaWf (vmaModify set va (·.growTo newEnd)) ↔ GrowthClear set v newEnd := by
  obtain ⟨l, r, rfl, -, hmod⟩ := vmaModify_split hfind
  rw [hmod]
  have hvok := h.ok v (by simp)
  have hperm : (l ++ v :: r).Perm (v :: (l ++ r)) := perm_middle
  have hperm' : (l ++ v.growTo newEnd :: r).Perm (v.growTo newEnd :: (l ++ r)) := perm_middle
  obtain ⟨hv, hrest⟩ := pairwise_cons.mp (SegKind.Apart.perm _ h.apart hperm)
  constructor
  · -- another region in the new pages would overlap the grown one
    intro hwf w hw hne
    obtain ⟨hg, -⟩ := pairwise_cons.mp (SegKind.Apart.perm _ hwf.apart hperm')
    have hw' : w ∈ l ++ r := by
      rcases mem_cons.mp (hperm.mem_iff.mp hw) with rfl | hw'
      · exact absurd rfl hne
      · exact hw'
    have hgw := hg w hw'
    have hvw := hv w hw'
    have hwok := (h.ok w hw).nonempty
    have hne' := hvok.nonempty
    simp only [vmaSeg, Vma.growTo] at hgw hvw
    omega
  intro hclear
  refine ⟨by simpa using h.count, sorted_replace (v := v) rfl h.sorted, ?_, ?_⟩
  · refine AllOk.perm ?_ hperm'.symm
    refine allOk_cons.mpr ⟨vmaOk_growTo hvok hal hlt, ?_⟩
    exact (allOk_cons.mp (h.ok.perm hperm)).2
  refine SegKind.Apart.perm _ (pairwise_cons.mpr ⟨fun w hw => ?_, hrest⟩) hperm'.symm
  have hwmem : w ∈ l ++ v :: r := hperm.mem_iff.mpr (by simp [hw])
  have hvw := hv w hw
  have hwok := (h.ok w hwmem).nonempty
  have hne' := hvok.nonempty
  have hne : w ≠ v := by
    rintro rfl
    simp only [vmaSeg] at hvw
    omega
  have hc := hclear w hwmem hne
  simp only [vmaSeg, Vma.growTo] at hvw ⊢
  omega

/-- The step is not a `brk` that grows the heap region over another region. -/
def BrkClear (s : Kernel × Task) (a : List Grant × MemCall) : Prop :=
  ∀ addr v, a.2 = .brk addr → BrkExtends (s.1.answering a.1) s.2 addr v →
    GrowthClear s.2.vmas v (pageAlignUp addr)

/-- One call keeps a well-formed set well-formed exactly when it is not such a `brk`. -/
lemma memStep_wf_iff (a : List Grant × MemCall) (h : VmaWf s.2.vmas) :
    VmaWf (memStep s a).2.vmas ↔ BrkClear s a := by
  obtain ⟨k, t⟩ := s
  obtain ⟨gs, call⟩ := a
  -- the calls other than `brk` always keep the set well-formed
  have hother : (∀ addr, call ≠ .brk addr) → VmaWf (memStep (k, t) (gs, call)).2.vmas →
      (VmaWf (memStep (k, t) (gs, call)).2.vmas ↔ BrkClear (k, t) (gs, call)) := by
    intro hne hwf
    exact ⟨fun _ addr v hc _ => absurd hc (hne addr), fun _ => hwf⟩
  cases call with
  | mmap addr length prot flags fd offset =>
    refine hother (by simp) ?_
    rcases hr : sysMmap (k.answering gs) t addr length prot flags fd offset with ⟨r, t', k'⟩
    simp only [memStep, hr]
    obtain ⟨-, rfl, -⟩ | ⟨start, end_, set, -, -, -, hadd, -, rfl⟩ := sysMmap_cases hr
    · exact h
    · exact h.add hadd
  | munmap addr length =>
    refine hother (by simp) ?_
    rcases hr : sysMunmap (k.answering gs) t addr length with ⟨r, t', k'⟩
    simp only [memStep, hr]
    obtain ⟨set, k1, -, hcut, rfl, -⟩ | ⟨end_, n, set, k1, -, -, -, -, hun, -, rfl, -⟩ :=
      sysMunmap_cases hr
    · exact hcut.wf h
    · exact h.unmap hun
  | mprotect addr length prot =>
    refine hother (by simp) ?_
    rcases hr : sysMprotect (k.answering gs) t addr length prot with ⟨r, t', k'⟩
    simp only [memStep, hr]
    obtain ⟨set, k1, -, hcut, rfl, -⟩ | ⟨end_, n, set, k1, -, -, -, -, -, hpr, -, rfl, -⟩ :=
      sysMprotect_cases hr
    · exact hcut.wf h
    · exact h.protectRange hpr
  | brk addr =>
    by_cases hext : ∃ v, BrkExtends (k.answering gs) t addr v
    · -- the region at the break grows in place
      obtain ⟨v, hv⟩ := hext
      have hset : (memStep (k, t) (gs, .brk addr)).2.vmas =
          vmaModify t.vmas t.brkCur (·.growTo (pageAlignUp addr)) := by
        simp only [memStep]
        rw [sysBrk_of_extends hv]
      rw [hset, h.grow_iff hv.2.1 (pageAlignUp_aligned addr) hv.2.2.1]
      constructor
      · intro hclear addr' v' hc hv'
        cases hc
        obtain rfl : v = v' := Option.mem_unique hv.2.1 hv'.2.1
        exact hclear
      · intro hclear
        exact hclear addr v rfl hv
    refine ⟨fun _ addr' v hc hv => ?_, fun _ => ?_⟩
    · cases hc
      exact absurd ⟨v, hv⟩ hext
    rcases hr : sysBrk (k.answering gs) t addr with ⟨r, t', k'⟩
    simp only [memStep, hr]
    obtain ⟨-, rfl | ⟨-, set, rfl, rfl | ⟨-, hadd⟩ | ⟨v, hv, -⟩⟩⟩ := sysBrk_cases hr
    · exact h
    · exact h
    · exact h.add hadd
    · exact absurd ⟨v, hv⟩ hext

/-- **Well-formedness of VMA sets.** In every run of memory calls in which no `brk` grows the heap
region over another region, the set of the task is well-formed after every call; and the first call
that does so leaves a set that is not. -/
theorem vmas_wf_iff_brk_clear {s : Kernel × Task} (h : Reach MemStart BrkClear memStep s) :
    VmaWf s.2.vmas ∧ ∀ a, VmaWf (memStep s a).2.vmas ↔ BrkClear s a := by
  have hwf : VmaWf s.2.vmas := by
    refine h.invariant (fun s => VmaWf s.2.vmas) ?_ ?_
    · intro s hs
      rw [hs.1]
      exact .nil
    · intro s a hwf hg
      exact (memStep_wf_iff a hwf).mpr hg
  exact ⟨hwf, fun a => memStep_wf_iff a hwf⟩

/-- A task whose records are in place, in the state after boot. -/
def freshState : Kernel × Task :=
  (.boot virtCfg, newTask 1 0x40100000 (ttbrPack 0x40104000 1) 0x40108000 0x4010c000 true)

lemma memStart_freshState : MemStart freshState := ⟨rfl, rfl, rfl⟩

/-- After the first growth of the heap the theorem applies: the call was no growth over a region. -/
theorem vmas_wf_iff_brk_clear_first_growth :
    ∃ s, Reach MemStart BrkClear memStep s ∧ s.2.vmas ≠ [] ∧ VmaWf s.2.vmas := by
  have hreach : Reach MemStart BrkClear memStep (memStep freshState ([], .brk 0x20000001)) := by
    refine .next (.start memStart_freshState) ?_
    rintro addr v - ⟨-, hfind, -⟩
    cases hfind
  exact ⟨_, hreach, by decide +kernel, (vmas_wf_iff_brk_clear hreach).1⟩

/-- The run that breaks well-formedness: a fixed mapping one page above the base of the arena, a
one-byte heap, and a growth of the heap by one page. -/
def heapOverMapping : List (List Grant × MemCall) :=
  [([], .mmap 0x20001000 0x1000 3 0x32 (2 ^ 64 - 1) 0), ([], .brk 0x20000001),
    ([], .brk 0x20001001)]

/-- **The heap grows over a mapping**: after three calls two regions of the task share a page. -/
theorem vmas_not_wf_heap_over_mapping : ∃ s, Reach MemStart (fun _ _ => True) memStep s ∧
      s.2.vmas.map (fun v => (v.start, v.end_)) =
        [(0x20000000, 0x20002000), (0x20001000, 0x20002000)] ∧ ¬ VmaWf s.2.vmas := by
  refine ⟨_, Reach.foldl (.start memStart_freshState) heapOverMapping, by decide +kernel,
    fun hwf => ?_⟩
  have hset : (heapOverMapping.foldl memStep freshState).2.vmas =
      [⟨0x20000000, 0x20002000, 3, 1, [0, 0]⟩, ⟨0x20001000, 0x20002000, 3, 3, [0]⟩] := by
    decide +kernel
  have hap := hwf.apart
  rw [hset] at hap
  have := (pairwise_cons.mp hap).1 _ (mem_singleton.mpr rfl)
  simp [vmaSeg] at this

/-! ## The break

A task that only calls `brk` has at most one region, from the base of the arena to the page-rounded
break. When the break is page-aligned that region ends at it, so `vma_find` at the break finds
nothing and the next growth takes the path of a first growth. -/

/-- One `brk` call. -/
def brkStep (s : Kernel × Task) (a : List Grant × Nat) : Kernel × Task :=
  let r := sysBrk (s.1.answering a.1) s.2 a.2
  (r.2.2, r.2.1)

/-- Every byte below the break lies in a readable and writable region. -/
def BreakCovered (t : Task) : Prop :=
  ∀ va, t.brkBase ≤ va → va < t.brkCur →
    ∃ v, vmaFind t.vmas va = some v ∧ protRead v.prot = true ∧ protWrite v.prot = true

/-- A growth of the break finds a region at the break, or it is the first one and its page array is
granted. -/
def BrkFindsHeap (s : Kernel × Task) (a : List Grant × Nat) : Prop :=
  BrkAccepted s.2 a.2 → s.2.brkCur < a.2 → vmaFind s.2.vmas s.2.brkCur = none →
    s.2.brkCur = s.2.brkBase ∧ (s.1.answering a.1).kmalloc.1 = true

/-- The one region of a task that only calls `brk`. -/
def HeapRegion (t : Task) (v : Vma) : Prop :=
  v.start = t.brkBase ∧ v.end_ = pageAlignUp t.brkCur ∧ v.prot = 3

/-- What holds along the runs: no region and an empty heap, or the heap region reaches to the
page-rounded break. -/
def HeapInv (t : Task) : Prop :=
  t.ttbr0 ≠ 0 ∧ t.brkBase = userBrkBase ∧ t.brkCur ≤ brkLimit t ∧
    ((t.vmas = [] ∧ t.brkCur = t.brkBase) ∨
      ∃ v, t.vmas = [v] ∧ t.brkBase < t.brkCur ∧ HeapRegion t v)

lemma brkLimit_eq (hb : t.brkBase = userBrkBase) : brkLimit t = 0x21000000 := by
  have h : userBrkBase + userBrkReservePages * 4096 = 0x21000000 := by decide
  exact (congrArg (· + userBrkReservePages * 4096) hb).trans h

/-- Rounding inside the arena does not wrap. -/
lemma pageAlignUp_arena (hb : t.brkBase = userBrkBase) {a : Nat} (h : a ≤ brkLimit t) :
    pageAlignUp a = (a + 4095) / 4096 * 4096 := by
  apply pageAlignUp_of_lt
  rw [brkLimit_eq hb] at h
  omega

lemma HeapInv.covered (h : HeapInv t) : BreakCovered t := by
  obtain ⟨-, hbase, hlim, ⟨hnil, hcur⟩ | ⟨v, hset, hlt, hs, he, hp⟩⟩ := h
  · intro va hlo hhi
    omega
  intro va hlo hhi
  rw [pageAlignUp_arena hbase hlim] at he
  have hv : v.start ≤ va ∧ va < v.end_ := by omega
  refine ⟨v, ?_, by rw [hp]; decide, by rw [hp]; decide⟩
  simp [hset, vmaFind, hv]

/-- The first growth adds the heap region when its array is granted, and only then. -/
lemma vmaAdd_first (hb : base = userBrkBase) (hal : newEnd % 4096 = 0) (hlt : base < newEnd)
    (hle : newEnd ≤ base + userBrkReservePages * 4096) :
    vmaAdd k [] base newEnd 3 vmaAnonymous =
      (if k.kmalloc.1 then some [freshVma base newEnd 3 vmaAnonymous] else none, k.kmalloc.2) := by
  subst hb
  simp only [userBrkReservePages] at hle
  exact vmaAdd_ok _ _ _ ⟨hlt, by decide, hal, by decide, forall_mem_nil _, by omega⟩

/-- A region is added over the heap region only to fail: they overlap. -/
lemma vmaAdd_over_heap (hs : v.start = base) (hne : base < v.end_) (hlt : base < newEnd) :
    (vmaAdd k [v] base newEnd 3 vmaAnonymous).1 = none := by
  rw [vmaAdd_not_ok]
  intro hok
  have := hok.apart v (by simp)
  omega

section
variable {addr : Nat} (hacc : BrkAccepted t addr)
include hacc

/-- The first growth: covered exactly when the array is granted. -/
lemma brk_first (hbase : t.brkBase = userBrkBase) (hnil : t.vmas = []) (hlt : t.brkBase < addr) :
    (k.kmalloc.1 = true ∧ HeapInv (sysBrk k t addr).2.1) ∨
      (k.kmalloc.1 = false ∧ ¬ BreakCovered (sysBrk k t addr).2.1) := by
  have hlim : addr ≤ brkLimit t := hacc.2.2.2.1
  have hup := pageAlignUp_arena hbase hlim
  have hbase' : t.brkBase = 0x20000000 := hbase
  have hlim' : addr ≤ t.brkBase + 4096 * 4096 := hlim
  have hfind : vmaFind t.vmas t.brkCur = none := by rw [hnil]; rfl
  rw [sysBrk_task hacc, hfind]
  dsimp only
  rw [if_pos (by omega), hnil, vmaAdd_first hbase (pageAlignUp_aligned addr) (by omega)
    (by simp only [userBrkReservePages]; omega)]
  cases hk : k.kmalloc.1 with
  | true =>
    left
    exact ⟨rfl, hacc.1, hbase, hlim, .inr ⟨_, rfl, hlt, rfl, rfl, rfl⟩⟩
  | false =>
    -- the break moved over an empty set
    right
    refine ⟨rfl, fun hcov => ?_⟩
    obtain ⟨v, hv, -⟩ := hcov t.brkBase (le_refl _) hlt
    cases hv

/-- A growth from inside the last page of the heap region extends the region. -/
lemma brk_extend (hbase : t.brkBase = userBrkBase)
    (hlim : t.brkCur ≤ brkLimit t) (hset : t.vmas = [v]) (hlt : t.brkBase < t.brkCur)
    (hv : HeapRegion t v) (hfind : vmaFind t.vmas t.brkCur = some v) :
    HeapInv (sysBrk k t addr).2.1 := by
  obtain ⟨hs, he, hp⟩ := hv
  have hacc' := hacc
  obtain ⟨h0, h1, h2, h3, h4⟩ := hacc'
  have hup := pageAlignUp_arena hbase h3
  have hup' := pageAlignUp_arena hbase hlim
  by_cases hgrow : v.end_ < pageAlignUp addr
  · cases hk : k.kmalloc.1 with
    | true =>
      rw [sysBrk_of_extends ⟨hacc, hfind, hgrow, hk⟩]
      refine ⟨h0, hbase, h3, .inr ⟨v.growTo (pageAlignUp addr), ?_, ?_, hs, rfl, hp⟩⟩
      · have hc : v.start ≤ t.brkCur ∧ t.brkCur < v.end_ := (vmaSeg.find_some hfind).2
        simp [hset, vmaModify, hc]
      · show t.brkBase < addr
        omega
    | false =>
      rw [sysBrk_task hacc, hfind]
      dsimp only
      rw [if_neg (not_le.mpr hgrow), if_neg (Bool.eq_false_iff.mp hk)]
      exact ⟨h0, hbase, hlim, .inr ⟨v, hset, hlt, hs, he, hp⟩⟩
  rw [sysBrk_task hacc, hfind]
  dsimp only
  rw [if_pos (not_lt.mp hgrow)]
  refine ⟨h0, hbase, h3, .inr ⟨v, hset, ?_, hs, ?_, hp⟩⟩
  · show t.brkBase < addr
    omega
  · show v.end_ = pageAlignUp addr
    omega

/-- A growth from a page-aligned break: the heap region ends at it, `vma_add` fails on the overlap
and the break moves without it. -/
lemma brk_aligned (hset : t.vmas = [v]) (hlt : t.brkBase < t.brkCur)
    (hs : v.start = t.brkBase) (he : v.end_ = t.brkCur) (hup : t.brkBase < pageAlignUp addr) :
    (sysBrk k t addr).2.1 = { t with brkCur := addr } := by
  have hfind : vmaFind t.vmas t.brkCur = none := by
    simp [hset, vmaFind, he]
  rw [sysBrk_task hacc, hfind]
  dsimp only
  rw [if_pos hup, hset, vmaAdd_over_heap hs (by omega) hup, Option.getD_none, ← hset]

end

/-- What a `brk` call does to a task in `HeapInv`: the invariant is kept, or the break moves up
without a region behind it. -/
lemma brkStep_heap (a : List Grant × Nat) (h : HeapInv s.2) :
    (BrkFindsHeap s a ∧ HeapInv (brkStep s a).2) ∨
      (¬ BrkFindsHeap s a ∧ ¬ BreakCovered (brkStep s a).2) := by
  obtain ⟨k, t⟩ := s
  obtain ⟨gs, addr⟩ := a
  have hinv := h
  obtain ⟨htt, hbase, hlim, hheap⟩ := h
  simp only [brkStep] at *
  by_cases hacc : BrkAccepted t addr
  case neg =>
    -- a request that is not accepted leaves the task as it was
    left
    rcases hr : sysBrk (k.answering gs) t addr with ⟨r, t', k'⟩
    obtain ⟨-, rfl | ⟨h, -⟩⟩ := sysBrk_cases hr
    · exact ⟨fun h => absurd h hacc, hinv⟩
    · exact absurd h hacc
  have hcur : t.brkCur ≤ addr := hacc.2.2.2.2
  have hup := pageAlignUp_arena hbase hacc.2.2.2.1
  have hup' := pageAlignUp_arena hbase hlim
  have hbase' : t.brkBase = 0x20000000 := hbase
  rcases hheap with ⟨hnil, hc⟩ | ⟨v, hset, hlt, hv⟩
  · by_cases heq : addr = t.brkBase
    · -- asking for the empty heap again
      left
      refine ⟨fun _ hlt => absurd hlt (by simp only; omega), ?_⟩
      have hfind : vmaFind t.vmas t.brkCur = none := by rw [hnil]; rfl
      rw [sysBrk_task hacc, hfind]
      dsimp only
      rw [if_neg (by omega)]
      exact ⟨htt, hbase, hacc.2.2.2.1, .inl ⟨hnil, heq⟩⟩
    rcases brk_first (k := k.answering gs) hacc hbase hnil (by omega) with ⟨hk, h⟩ | ⟨hk, h⟩
    · exact .inl ⟨fun _ _ _ => ⟨hc, hk⟩, h⟩
    right
    refine ⟨fun hf => ?_, h⟩
    have := (hf hacc (by simp only; omega) (by rw [hnil]; rfl)).2
    rw [hk] at this
    cases this
  obtain ⟨hs, he, hp⟩ := hv
  by_cases hal : t.brkCur % 4096 = 0
  · have he' : v.end_ = t.brkCur := by omega
    rw [brk_aligned hacc hset hlt hs he' (by omega)]
    by_cases heq : addr = t.brkCur
    · left
      refine ⟨fun _ hlt => absurd hlt (by simp only; omega), ?_⟩
      rw [heq]
      exact hinv
    -- the page at the old break has no region
    right
    have hnone : vmaFind t.vmas t.brkCur = none := by simp [hset, vmaFind, he']
    refine ⟨fun hf => ?_, fun hcov => ?_⟩
    · have := (hf hacc (by simp only; omega) hnone).1
      simp only at this
      omega
    · obtain ⟨w, hw, -⟩ := hcov t.brkCur hlt.le (by simp only; omega)
      rw [hnone] at hw
      cases hw
  have hfind : vmaFind t.vmas t.brkCur = some v := by
    have hc : v.start ≤ t.brkCur ∧ t.brkCur < v.end_ := by omega
    simp [hset, vmaFind, hc]
  left
  refine ⟨fun _ _ hnone => ?_, brk_extend hacc hbase hlim hset hlt ⟨hs, he, hp⟩ hfind⟩
  rw [hfind] at hnone
  cases hnone

/-- **The break.** In every run of `brk` calls in which each growth finds the heap region at the
break or is the first one and gets its array, every byte below the break lies in a readable and
writable region after every call; and the first growth that does not leaves bytes below the break in
no region. -/
theorem brk_covered_iff {s : Kernel × Task}
    (h : Reach (fun s => MemStart s ∧ s.2.ttbr0 ≠ 0) BrkFindsHeap brkStep s) :
    BreakCovered s.2 ∧ ∀ a, BreakCovered (brkStep s a).2 ↔ BrkFindsHeap s a := by
  have hinv : HeapInv s.2 := by
    refine h.invariant (fun s => HeapInv s.2) ?_ ?_
    · rintro s ⟨⟨hnil, hbase, hcur⟩, htt⟩
      refine ⟨htt, hbase, ?_, .inl ⟨hnil, hcur.trans hbase.symm⟩⟩
      rw [hcur, brkLimit_eq hbase]
      decide
    · intro s a hinv hg
      rcases brkStep_heap a hinv with ⟨-, h⟩ | ⟨h, -⟩
      · exact h
      · exact absurd hg h
  refine ⟨hinv.covered, fun a => ?_⟩
  rcases brkStep_heap a hinv with ⟨hg, h⟩ | ⟨hg, h⟩
  · exact ⟨fun _ => hg, fun _ => h.covered⟩
  · exact ⟨fun hc => absurd hc h, fun hf => absurd hf hg⟩

/-- After the first growth, to a break that is not page-aligned, the heap is covered. -/
theorem brk_covered_iff_first_growth :
    ∃ s, Reach (fun s => MemStart s ∧ s.2.ttbr0 ≠ 0) BrkFindsHeap brkStep s ∧
      s.2.brkCur = 0x20001801 ∧ BreakCovered s.2 := by
  have hreach : Reach (fun s => MemStart s ∧ s.2.ttbr0 ≠ 0) BrkFindsHeap brkStep
      (brkStep freshState ([], 0x20001801)) := by
    refine .next (.start ⟨memStart_freshState, by decide⟩) ?_
    intro _ _ _
    exact ⟨rfl, rfl⟩
  exact ⟨_, hreach, by decide +kernel, (brk_covered_iff hreach).1⟩

/-- **A page-aligned break is followed by a hole**: one page of heap, then one byte more. The new
break is reported, but the byte below it is in no region. -/
theorem brk_not_covered_after_aligned_break :
    ∃ s, Reach (fun s => MemStart s ∧ s.2.ttbr0 ≠ 0) (fun _ _ => True) brkStep s ∧
      s.2.brkCur = 0x20001001 ∧ vmaFind s.2.vmas 0x20001000 = none ∧ ¬ BreakCovered s.2 := by
  have hcur : ([([], 0x20001000), ([], 0x20001001)].foldl brkStep freshState).2.brkCur =
      0x20001001 := by decide +kernel
  have hbase : ([([], 0x20001000), ([], 0x20001001)].foldl brkStep freshState).2.brkBase =
      0x20000000 := by decide +kernel
  have hnone : vmaFind ([([], 0x20001000), ([], 0x20001001)].foldl brkStep freshState).2.vmas
      0x20001000 = none := by decide +kernel
  refine ⟨_, Reach.foldl (.start ⟨memStart_freshState, by decide⟩) _, hcur, hnone, fun hcov => ?_⟩
  obtain ⟨v, hv, -⟩ := hcov 0x20001000 (by rw [hbase]; decide) (by rw [hcur]; decide)
  rw [hnone] at hv
  cases hv

end FermiOs
