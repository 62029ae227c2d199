import FermiOs.Syscall.MemRun

/-!
# The arena of the break

`mmu.h` reserves `[USER_BRK_BASE, USER_BRK_BASE + 16 MiB)` for `brk`. Nothing in `mmap_find_free`
knows of the reservation: the search starts at `USER_MMAP_BASE` and takes the lowest gap that is long
enough, and an arena that is not yet in use is a gap like any other.

The search is characterised first (`mmapFindFree_result`). A request then stays out of the arena
unless it `Spills`: no gap below the arena is long enough while one that meets the arena is.
-/

namespace FermiOs
open Library List
variable {k k' : Kernel} {prot va : Nat} {r : Int} {t' : Task}

/-- First address above the arena. -/
def arenaEnd : Nat := userBrkBase + userBrkReservePages * 4096

/-- No region meets `[c, c + len)`. -/
def RangeFree (set : VmaSet) (c len : Nat) : Prop := ∀ v ∈ set, v.end_ ≤ c ∨ c + len ≤ v.start

/-- Some gap meets the arena and none below the arena is long enough. -/
def Spills (set : VmaSet) (len : Nat) : Prop :=
  (∃ c, userMmapBase ≤ c ∧ c < arenaEnd ∧ userBrkBase < c + len ∧ RangeFree set c len) ∧
    ∀ c, userMmapBase ≤ c → c + len ≤ userBrkBase → ¬ RangeFree set c len

/-- Regions of the right shape, all of them in user space. -/
structure InUserSpace (set : VmaSet) : Prop where
  ok : AllOk set
  below : ∀ p g, vmaSeg.Holds set p g → p < userVaTop

variable {addr end_ flags start : Nat} {t : Task} {v : Vma}

lemma InUserSpace.end_le {set : VmaSet} (h : InUserSpace set) (hv : v ∈ set) : v.end_ ≤ userVaTop := by
  have hne := (h.ok v hv).nonempty
  have hlast : v.end_ - 1 < userVaTop :=
    h.below _ _ ⟨v, hv, ⟨by simp only [vmaSeg]; omega, by simp only [vmaSeg]; omega⟩, rfl⟩
  omega

/-! ## The lowest gap -/

section
variable {set : VmaSet} {len : Nat}

/-- What the search gives from the candidate `c` on: the lowest gap, or `0` when every gap there
reaches out of the window. -/
def SearchResult (set : VmaSet) (len c r : Nat) : Prop :=
  (r = 0 ∧ ∀ d, c ≤ d → RangeFree set d len → userVaTop < d + len) ∨
    c ≤ r ∧ r % 4096 = 0 ∧ r + len ≤ userVaTop ∧ RangeFree set r len ∧
      ∀ d, c ≤ d → RangeFree set d len → r ≤ d

section
variable (hset : InUserSpace set) (hlen : len ≤ userVaTop)
include hset hlen

lemma mmapSearch_result {fuel c : Nat}
    (hc : c ≤ userVaTop) (hal : c % 4096 = 0) (hfuel : (above set c).length < fuel) :
    SearchResult set len c (mmapSearch set len fuel c) := by
  induction fuel generalizing c with
  | zero => omega
  | succ fuel ih =>
    have hsum : add64 c len = c + len := by
      simp only [userVaTop] at hc hlen
      rw [add64, Nat.mod_eq_of_lt (by omega)]
    rw [mmapSearch, hsum]
    by_cases hfit : c + len ≤ userVaTop
    swap
    · rw [if_neg hfit]
      exact .inl ⟨rfl, fun d hd _ => by omega⟩
    rw [if_pos hfit]
    cases hov : vmaFindOverlap set c (c + len) with
    | none =>
      dsimp only
      refine .inr ⟨le_refl c, hal, hfit, fun v hv => ?_, fun d hd _ => hd⟩
      simp only [vmaFindOverlap, find?_eq_none, decide_eq_true_eq] at hov
      have := hov v hv
      omega
    | some hit =>
      have hmem := mem_of_find?_eq_some hov
      have hprop := find?_some hov
      simp only [decide_eq_true_eq] at hprop
      -- regions end on a page boundary, so the next candidate is the end of the hit
      have hend := hset.end_le hmem
      have hendal := (hset.ok hit hmem).end_aligned
      have hup : pageAlignUp hit.end_ = hit.end_ := by
        simp only [userVaTop] at hend
        rw [pageAlignUp_of_lt (by omega)]
        omega
      have hfewer := above_length_lt hmem hprop.1 (le_refl hit.end_)
      dsimp only
      rw [hup]
      -- a gap that starts inside the hit would overlap it
      have hpast : ∀ d, c ≤ d → RangeFree set d len → hit.end_ ≤ d := by
        intro d hd hfree
        rcases hfree hit hmem with h | h <;> omega
      rcases ih hend hendal (by omega) with ⟨h0, hnone⟩ | ⟨hle, hral, hrfit, hfree, hlow⟩
      · exact .inl ⟨h0, fun d hd hfree => hnone d (hpast d hd hfree) hfree⟩
      · exact .inr ⟨by omega, hral, hrfit, hfree, fun d hd hd' => hlow d (hpast d hd hd') hd'⟩

/-- **The search finds the lowest gap** at or above `USER_MMAP_BASE`. -/
lemma mmapFindFree_result : SearchResult set len userMmapBase (mmapFindFree set len) :=
  mmapSearch_result hset hlen (by decide) (by decide)
    (Nat.lt_succ_of_le (length_filter_le _ _))

/-- A request that does not spill is placed outside the arena. -/
lemma mmapFindFree_outside (h0 : mmapFindFree set len ≠ 0) (hspill : ¬ Spills set len) :
    mmapFindFree set len + len ≤ userBrkBase ∨ arenaEnd ≤ mmapFindFree set len := by
  rcases mmapFindFree_result hset hlen with ⟨hzero, -⟩ | ⟨hbase, -, -, hfree, hlow⟩
  · exact absurd hzero h0
  by_contra hmeets
  obtain ⟨h1, h2⟩ := not_or.mp hmeets
  refine hspill ⟨⟨_, hbase, not_le.mp h2, not_le.mp h1, hfree⟩, fun c hc hfit hc' => ?_⟩
  have hle := hlow c hc hc'
  omega

end

/-- A placed request ends in user space. Without `MAP_FIXED` the place is the result of the search, and
does not wrap. -/
lemma mmapPlace_ok {length : Nat} (h : mmapPlace set addr length flags = .ok (start, end_)) :
    end_ ≤ userVaTop ∧ (mapFixed flags = false → start = mmapFindFree set (pageAlignUp length) ∧
      start ≠ 0 ∧ end_ = start + pageAlignUp length) := by
  have hrange : ∀ {a b : Nat}, ¬ (!mmapRangeOk a b) = true → a < b ∧ b ≤ userVaTop := by
    intro a b hok
    simpa [mmapRangeOk] using hok
  unfold mmapPlace at h
  split at h
  · rename_i hfixed
    split at h
    · cases h
    dsimp only at h
    split at h
    · cases h
    rename_i hok
    split at h
    · cases h
    · cases h
      exact ⟨(hrange hok).2, fun hno => absurd (hfixed.symm.trans hno) (by decide)⟩
  dsimp only at h
  split at h
  · cases h
  split at h
  · cases h
  rename_i h0
  split at h
  · cases h
  rename_i hok
  cases h
  obtain ⟨hlt, htop⟩ := hrange hok
  refine ⟨htop, fun _ => ⟨rfl, h0, ?_⟩⟩
  have hup : pageAlignUp length < 2 ^ 64 := by
    simp only [pageAlignUp, add64]
    omega
  -- a sum that wrapped would lie below its first summand
  simp only [add64, userVaTop] at hlt htop ⊢
  omega

end

/-! ## Runs -/

/-- A task with the ranges `mmap` has returned without `MAP_FIXED`. -/
structure ArenaState where
  kernel : Kernel
  task : Task
  handed : List (Nat × Nat)

section
variable (s : ArenaState)

/-- The range a call hands out, when it is an `mmap` without `MAP_FIXED` that succeeds. -/
def handsOut (a : List Grant × MemCall) : List (Nat × Nat) :=
  match a.2 with
  | .mmap addr length prot flags fd offset =>
    let r := (sysMmap (s.kernel.answering a.1) s.task addr length prot flags fd offset).1
    if mapFixed flags = false ∧ r ≠ -1 then [(r.toNat, r.toNat + pageAlignUp length)] else []
  | _ => []

def arenaStep (a : List Grant × MemCall) : ArenaState where
  kernel := (memStep (s.kernel, s.task) a).1
  task := (memStep (s.kernel, s.task) a).2
  handed := handsOut s a ++ s.handed

/-- A fresh task to which nothing has been handed out. -/
def ArenaStart : Prop := MemStart (s.kernel, s.task) ∧ s.handed = []

/-- The call is not an `mmap` without `MAP_FIXED` that spills. -/
def StaysOut (a : List Grant × MemCall) : Prop :=
  match a.2 with
  | .mmap _ length _ flags _ _ =>
    mapFixed flags = false → ¬ Spills s.task.vmas (pageAlignUp length)
  | _ => True

end

/-- Some region covers the address. -/
def Covered (set : VmaSet) (p : Nat) : Prop := ∃ v ∈ set, vmaSeg.Covers v p

/-- What the layout promises: the ranges handed out lie outside the arena, and a `brk` adds no
address of any of them. -/
structure ArenaKept (s : ArenaState) : Prop where
  outside : ∀ r ∈ s.handed, r.2 ≤ userBrkBase ∨ arenaEnd ≤ r.1
  brk_apart : ∀ gs addr p, Covered (memStep (s.kernel, s.task) (gs, .brk addr)).2.vmas p →
    ¬ Covered s.task.vmas p → ∀ r ∈ s.handed, ¬ (r.1 ≤ p ∧ p < r.2)

/-! ## What the calls keep -/

section
variable {set set' : VmaSet}

lemma InUserSpace.nil : InUserSpace [] :=
  ⟨forall_mem_nil _, fun _ _ ⟨_, h, _⟩ => absurd h not_mem_nil⟩

lemma InUserSpace.recut (h : InUserSpace set) (hc : Recut set set') : InUserSpace set' :=
  ⟨hc.ok h.ok, fun p g hp => h.below p g ((hc.holds h.ok p g).mp hp)⟩

lemma InUserSpace.sublist (h : InUserSpace set) (hs : set'.Sublist set) : InUserSpace set' :=
  ⟨fun v hv => h.ok v (hs.subset hv), fun p g ⟨v, hv, hp⟩ => h.below p g ⟨v, hs.subset hv, hp⟩⟩

lemma InUserSpace.protect (h : InUserSpace set) (start end_ prot : Nat) :
    InUserSpace (set.map (protectInside start end_ prot)) := by
  have hfield : ∀ v, (protectInside start end_ prot v).start = v.start ∧
      (protectInside start end_ prot v).end_ = v.end_ ∧
      (protectInside start end_ prot v).pages = v.pages := by
    intro v
    unfold protectInside
    split <;> exact ⟨rfl, rfl, rfl⟩
  constructor
  · intro w hw
    obtain ⟨v, hv, rfl⟩ := mem_map.mp hw
    obtain ⟨h1, h2, h3⟩ := hfield v
    have hv' := h.ok v hv
    refine ⟨h1 ▸ hv'.start_aligned, h2 ▸ hv'.end_aligned, by rw [h1, h2]; exact hv'.nonempty, ?_⟩
    rw [Vma.npages, h1, h2, h3]
    exact hv'.array_len
  rintro p g ⟨w, hw, ⟨hlo, hhi⟩, -⟩
  obtain ⟨v, hv, rfl⟩ := mem_map.mp hw
  obtain ⟨h1, h2, -⟩ := hfield v
  simp only [vmaSeg, h1, h2] at hlo hhi
  exact h.below p _ ⟨v, hv, ⟨hlo, hhi⟩, rfl⟩

/-- The regions after a successful `vma_add`. -/
lemma vmaAdd_covered (hadd : vmaAdd k set start end_ prot flags = (some set', k')) (p : Nat) :
    Covered set' p ↔ (start ≤ p ∧ p < end_) ∨ Covered set p := by
  obtain ⟨-, rfl⟩ := vmaAdd_some hadd
  have hperm := vmaInsertSorted_perm set (freshVma start end_ prot flags)
  simp only [Covered, hperm.mem_iff, exists_mem_cons_iff]
  rfl

lemma InUserSpace.add (h : InUserSpace set)
    (hadd : vmaAdd k set start end_ prot flags = (some set', k')) (htop : end_ ≤ userVaTop) :
    InUserSpace set' := by
  have hcov := vmaAdd_covered hadd
  obtain ⟨hok, rfl⟩ := vmaAdd_some hadd
  refine ⟨AllOk.perm (allOk_cons.mpr ⟨hok.fresh prot flags, h.ok⟩) (vmaInsertSorted_perm _ _).symm, ?_⟩
  rintro p g ⟨v, hv, hp, hg⟩
  rcases (hcov p).mp ⟨v, hv, hp⟩ with ⟨-, hhi⟩ | ⟨w, hw, hc⟩
  · omega
  · exact h.below p _ ⟨w, hw, hc, rfl⟩

/-- The regions after a growth in place. -/
lemma vmaModify_grow_covered {newEnd : Nat} (hfind : vmaFind set va = some v)
    (hlt : v.end_ < newEnd) (hne : v.start ≤ v.end_) (p : Nat) :
    Covered (vmaModify set va (·.growTo newEnd)) p ↔ (v.end_ ≤ p ∧ p < newEnd) ∨ Covered set p := by
  obtain ⟨l, r, rfl, -, hmod⟩ := vmaModify_split hfind
  rw [hmod]
  simp only [Covered, mem_append, mem_cons, or_and_right, exists_or,
    exists_eq_left, SegKind.Covers, vmaSeg, Vma.growTo]
  constructor
  · rintro (h | h | h)
    · exact .inr (.inl h)
    · by_cases hp : p < v.end_
      · exact .inr (.inr (.inl ⟨h.1, hp⟩))
      · exact .inl ⟨not_lt.mp hp, h.2⟩
    · exact .inr (.inr (.inr h))
  rintro (h | h | h | h)
  · exact .inr (.inl ⟨by omega, h.2⟩)
  · exact .inl h
  · exact .inr (.inl ⟨h.1, by omega⟩)
  · exact .inr (.inr h)

lemma InUserSpace.grow (h : InUserSpace set) {newEnd : Nat} (hfind : vmaFind set va = some v)
    (hal : newEnd % 4096 = 0) (hlt : v.end_ < newEnd) (htop : newEnd ≤ userVaTop) :
    InUserSpace (vmaModify set va (·.growTo newEnd)) := by
  have hv : v ∈ set := (vmaSeg.find_some hfind).1
  constructor
  · obtain ⟨l, r, hset, -, hmod⟩ := vmaModify_split hfind
    rw [hmod]
    intro w hw
    rcases mem_append.mp hw with hw | hw
    · exact h.ok w (hset ▸ mem_append_left _ hw)
    · rcases mem_cons.mp hw with rfl | hw
      · exact vmaOk_growTo (h.ok v hv) hal hlt
      · exact h.ok w (hset ▸ mem_append_right _ (mem_cons_of_mem _ hw))
  rintro p g ⟨w, hw, hp, -⟩
  rcases (vmaModify_grow_covered hfind hlt (h.ok v hv).nonempty.le p).mp ⟨w, hw, hp⟩ with
    ⟨-, hhi⟩ | ⟨w, hw, hc⟩
  · omega
  · exact h.below p _ ⟨w, hw, hc, rfl⟩

end

/-! ## The invariant -/

/-- The set lies in user space and the break in its arena. -/
structure ArenaInv (t : Task) : Prop where
  set : InUserSpace t.vmas
  base : t.brkBase = userBrkBase
  cur : userBrkBase ≤ t.brkCur

section
variable (h : ArenaInv t)
include h

/-- The page-rounded break of an accepted request lies in the arena. -/
lemma ArenaInv.newEnd (hacc : BrkAccepted t addr) :
    pageAlignUp addr ≤ arenaEnd ∧ userBrkBase ≤ addr := by
  obtain ⟨-, -, hlo, hhi, -⟩ := hacc
  have harena : arenaEnd = 0x21000000 := by decide
  refine ⟨?_, h.base ▸ hlo⟩
  rw [pageAlignUp_arena h.base hhi, harena]
  rw [brkLimit_eq h.base] at hhi
  omega

/-- A `brk` covers addresses of the arena only. -/
lemma ArenaInv.brk_covers (hr : sysBrk k t addr = (r, t', k')) {p : Nat} (hp : Covered t'.vmas p)
    (hnew : ¬ Covered t.vmas p) : userBrkBase ≤ p ∧ p < arenaEnd := by
  obtain ⟨-, rfl | ⟨hacc, set, rfl, rfl | ⟨-, hadd⟩ | ⟨v, ⟨-, hfind, hlt, -⟩, rfl⟩⟩⟩ := sysBrk_cases hr
  · exact absurd hp hnew
  · exact absurd hp hnew
  · have hend := (h.newEnd hacc).1
    have hbase := h.base
    rcases (vmaAdd_covered hadd p).mp hp with hin | hold
    · omega
    · exact absurd hold hnew
  have hend := (h.newEnd hacc).1
  have hcur := h.cur
  obtain ⟨hv, hcov⟩ := vmaSeg.find_some hfind
  simp only [SegKind.Covers, vmaSeg] at hcov
  rcases (vmaModify_grow_covered hfind hlt (h.set.ok v hv).nonempty.le p).mp hp with hin | hold
  · omega
  · exact absurd hold hnew

lemma ArenaInv.brk (hr : sysBrk k t addr = (r, t', k')) : ArenaInv t' := by
  obtain ⟨-, rfl | ⟨hacc, set, rfl, hset⟩⟩ := sysBrk_cases hr
  · exact h
  obtain ⟨hend, hlo⟩ := h.newEnd hacc
  have htop : pageAlignUp addr ≤ userVaTop := hend.trans (by decide)
  refine ⟨?_, h.base, hlo⟩
  rcases hset with rfl | ⟨-, hadd⟩ | ⟨v, ⟨-, hfind, hlt, -⟩, rfl⟩
  · exact h.set
  · exact h.set.add hadd htop
  · exact h.set.grow hfind (pageAlignUp_aligned addr) hlt htop

lemma ArenaInv.step (a : List Grant × MemCall) : ArenaInv (memStep (k, t) a).2 := by
  obtain ⟨gs, call⟩ := a
  cases call with
  | mmap addr length prot flags fd offset =>
    rcases hr : sysMmap (k.answering gs) t addr length prot flags fd offset with ⟨r, t', k'⟩
    simp only [memStep, hr]
    obtain ⟨-, rfl, -⟩ | ⟨start, end_, set, -, -, hplace, hadd, -, rfl⟩ := sysMmap_cases hr
    · exact h
    · exact ⟨h.set.add hadd (mmapPlace_ok hplace).1, h.base, h.cur⟩
  | munmap addr length =>
    rcases hr : sysMunmap (k.answering gs) t addr length with ⟨r, t', k'⟩
    simp only [memStep, hr]
    obtain ⟨set, k1, -, hcut, rfl, -⟩ | ⟨end_, n, set, k1, -, -, -, -, hun, -, rfl, -⟩ :=
      sysMunmap_cases hr
    · exact ⟨h.set.recut hcut, h.base, h.cur⟩
    · obtain ⟨hno, -⟩ | ⟨k2, set1, -, hcut, -, -, -, hmerge⟩ := vmaUnmapRange_cases hun
      · cases hno
      · exact ⟨((h.set.recut hcut).sublist filter_sublist).recut hmerge.recut, h.base, h.cur⟩
  | mprotect addr length prot =>
    rcases hr : sysMprotect (k.answering gs) t addr length prot with ⟨r, t', k'⟩
    simp only [memStep, hr]
    obtain ⟨set, k1, -, hcut, rfl, -⟩ | ⟨end_, n, set, k1, -, -, -, -, -, hpr, -, rfl, -⟩ :=
      sysMprotect_cases hr
    · exact ⟨h.set.recut hcut, h.base, h.cur⟩
    · obtain ⟨-, ⟨hno, -⟩ | ⟨-, set1, hcut, -, -, hmerge⟩⟩ := vmaProtectRange_cases hpr
      · cases hno
      · exact ⟨((h.set.recut hcut).protect _ _ _).recut hmerge.recut, h.base, h.cur⟩
  | brk addr =>
    rcases hr : sysBrk (k.answering gs) t addr with ⟨r, t', k'⟩
    simp only [memStep, hr]
    exact h.brk hr

end

/-- What a call that does not spill hands out lies outside the arena. -/
lemma handsOut_outside {s : ArenaState} {a : List Grant × MemCall} (h : ArenaInv s.task)
    (hg : StaysOut s a) {r : Nat × Nat} (hr : r ∈ handsOut s a) :
    r.2 ≤ userBrkBase ∨ arenaEnd ≤ r.1 := by
  obtain ⟨gs, call⟩ := a
  cases call with
  | mmap addr length prot flags fd offset =>
    simp only [handsOut] at hr
    split at hr
    swap
    · cases hr
    rename_i hcond
    obtain ⟨hfixed, hne⟩ := hcond
    rcases hcall : sysMmap (s.kernel.answering gs) s.task addr length prot flags fd offset with
      ⟨x, t', k'⟩
    rw [hcall] at hr hne
    obtain rfl := mem_singleton.mp hr
    obtain ⟨start, end_, hplace, rfl⟩ : ∃ start end_,
        mmapPlace s.task.vmas addr length flags = .ok (start, end_) ∧ x = start := by
      obtain ⟨rfl, -⟩ | ⟨start, end_, set, -, -, hplace, -, rfl, -⟩ := sysMmap_cases hcall
      · exact absurd rfl hne
      · exact ⟨start, end_, hplace, rfl⟩
    obtain ⟨htop, hfree⟩ := mmapPlace_ok hplace
    obtain ⟨rfl, h0, rfl⟩ := hfree hfixed
    have hle : pageAlignUp length ≤ userVaTop := by omega
    simpa using mmapFindFree_outside h.set hle h0 (hg hfixed)
  | munmap addr length => cases hr
  | mprotect addr length prot => cases hr
  | brk addr => cases hr

/-- **The arena stays clear**: in every run in which no `mmap` spills, every range handed out lies
outside the arena and no `brk` meets one. -/
theorem arena_kept {s : ArenaState} (h : Reach ArenaStart StaysOut arenaStep s) : ArenaKept s := by
  have hinv : ArenaInv s.task ∧ ∀ r ∈ s.handed, r.2 ≤ userBrkBase ∨ arenaEnd ≤ r.1 := by
    refine h.invariant
      (fun s => ArenaInv s.task ∧ ∀ r ∈ s.handed, r.2 ≤ userBrkBase ∨ arenaEnd ≤ r.1) ?_ ?_
    · rintro s ⟨⟨hset, hbase, hcur⟩, hnil⟩
      refine ⟨⟨hset ▸ .nil, hbase, hcur.ge⟩, ?_⟩
      rw [hnil]
      simp
    rintro s a ⟨hinv, hout⟩ hg
    refine ⟨hinv.step a, fun r hr => ?_⟩
    rcases mem_append.mp hr with hr | hr
    · exact handsOut_outside hinv hg hr
    · exact hout r hr
  refine ⟨hinv.2, fun gs addr p hp hnew r hr hin => ?_⟩
  rcases hcall : sysBrk (s.kernel.answering gs) s.task addr with ⟨x, t', k'⟩
  simp only [memStep, hcall] at hp
  have harena := hinv.1.brk_covers hcall hp hnew
  have hout := hinv.2 r hr
  omega

/-- A one-page request in a fresh task: the theorem applies and the range handed out is the page at
`USER_MMAP_BASE`. -/
theorem arena_kept_first_page :
    ∃ s, Reach ArenaStart StaysOut arenaStep s ∧ s.handed = [(0x1000000, 0x1001000)] ∧ ArenaKept s := by
  have hreach : Reach ArenaStart StaysOut arenaStep
      (arenaStep ⟨freshState.1, freshState.2, []⟩ ([], .mmap 0 1 3 0x22 (2 ^ 64 - 1) 0)) := by
    refine .next (.start ⟨memStart_freshState, rfl⟩) fun _ hspill => ?_
    refine hspill.2 userMmapBase (le_refl _) (by decide) fun v hv => ?_
    cases hv
  exact ⟨_, hreach, by decide +kernel, arena_kept hreach⟩

/-- **A mapping over the arena**: the first request of a task, one page longer than the space below
the arena, is granted and reaches into it. -/
theorem mmap_over_arena : ∃ s, Reach ArenaStart (fun _ _ => True) arenaStep s ∧
      s.handed = [(0x1000000, 0x20001000)] ∧ ¬ ArenaKept s := by
  have hreach : Reach ArenaStart (fun _ _ => True) arenaStep
      (arenaStep ⟨freshState.1, freshState.2, []⟩
        ([], .mmap 0 0x1F000001 3 0x22 (2 ^ 64 - 1) 0)) :=
    .next (.start ⟨memStart_freshState, rfl⟩) trivial
  have hhanded : (arenaStep ⟨freshState.1, freshState.2, []⟩
      ([], .mmap 0 0x1F000001 3 0x22 (2 ^ 64 - 1) 0)).handed = [(0x1000000, 0x20001000)] := by
    decide +kernel
  refine ⟨_, hreach, hhanded, fun hk => ?_⟩
  have hout := hk.outside (0x1000000, 0x20001000) (by rw [hhanded]; exact mem_singleton.mpr rfl)
  revert hout
  decide

end FermiOs
