import FermiOs.Mm.Pmm
import FermiOs.Mm.Pte

/-!
# Kernel memory state

The state the memory-management code works on: the page allocator, the contents of physical pages,
the user page tables and the TLB. Every allocation consults `grants`, one answer per call, so that
any page or heap allocation may fail at any point and `kmalloc` may grow the heap by taking pages; an
exhausted list grants everything the allocator itself can satisfy.

A user page table is kept flat: `tabs` lists its L1, L2 and L3 table pages with the address prefix
each of them covers, and `pte` holds the L3 descriptors by virtual page number. A fresh table page is
zeroed, so adding one clears the descriptors below it.
-/

namespace FermiOs
open Library List Function

/-- The environment's answer to one allocation request. -/
inductive Grant
  | ok
  | fail
  /-- `kmalloc` first grows the heap by this many pages; for a page request the same as `ok`. -/
  | grow (pages : Nat)
  deriving DecidableEq

/-- A user address space below its L0 page. -/
structure PageTable where
  tabs : List ((Nat × Nat) × Nat)
  pte : Nat → Pte

/-- The state of the memory-management code. The TLB is the set of translations it may hold: ASID,
virtual page number and descriptor. -/
structure Kernel where
  pmm : Pmm
  frame : Nat → Nat → UInt8
  tables : Nat → PageTable
  tlb : Nat → Nat → Pte → Bool
  nextPid : Nat
  nextAsid : Nat
  grants : List Grant

namespace PageTable

/-- An L0 page with no entries. -/
def empty : PageTable where
  tabs := []
  pte := fun _ => 0#64

/-- Level and address prefix of the table page that translates `va` at `level`. -/
def tableKey (level va : Nat) : Nat × Nat := (level, va / 2 ^ (48 - 9 * level))

section
variable (pt : PageTable)

/-- The table page of a level, when the level above points at one. -/
def table? (level va : Nat) : Option Nat := pt.tabs.lookup (tableKey level va)

/-- A zeroed table page is entered: nothing below it is mapped. -/
def addTable (level va phys : Nat) : PageTable where
  tabs := (tableKey level va, phys) :: pt.tabs
  pte := fun vpn => if tableKey level (vpn * 4096) = tableKey level va then 0#64 else pt.pte vpn

/-- The walk of the hardware: all three tables present and the L3 descriptor valid. -/
def leaf (va : Nat) : Option Pte :=
  if (pt.table? 1 va).isSome && (pt.table? 2 va).isSome && (pt.table? 3 va).isSome &&
      pteValid (pt.pte (va / 4096)) then some (pt.pte (va / 4096)) else none

/-- Store an L3 descriptor. -/
def setPte (va : Nat) (w : Pte) : PageTable :=
  { pt with pte := update pt.pte (va / 4096) w }

/-- The table pages below L0. -/
def pages : List Nat := pt.tabs.map Prod.snd

end
end PageTable

variable {k k' : Kernel} {xs ys : List Nat}

namespace Kernel

/-- After `pmm_init` and `sched_init`: no user table, nothing cached, the idle task has pid `0`. -/
def boot (cfg : MemCfg) : Kernel where
  pmm := .init cfg
  frame := fun _ _ => 0
  tables := fun _ => .empty
  tlb := fun _ _ _ => false
  nextPid := 1
  nextAsid := 1
  grants := []

section
variable (k : Kernel)

/-- `pmm_allocate_page`. -/
def pmmAllocatePage : Nat × Kernel :=
  match k.grants with
  | .fail :: gs => (0, { k with grants := gs })
  | gs => (k.pmm.allocatePage.1, { k with pmm := k.pmm.allocatePage.2, grants := gs.tail })

/-- `pmm_allocate_pages`. -/
def pmmAllocatePages (count : Nat) : Nat × Kernel :=
  match k.grants with
  | .fail :: gs => (0, { k with grants := gs })
  | gs =>
    ((k.pmm.allocatePages count).1,
      { k with pmm := (k.pmm.allocatePages count).2, grants := gs.tail })

/-- `pmm_free_page`. -/
def pmmFreePage (pa : Nat) : Kernel := { k with pmm := k.pmm.freePage pa }

/-- `pmm_free_page` for each page of a list. -/
def pmmFreeList (pas : List Nat) : Kernel := { k with pmm := k.pmm.freeList pas }

/-- `pmm_free_pages`. -/
def pmmFreePages (pa count : Nat) : Kernel := k.pmmFreeList (pagesFrom pa count)

/-- `kmalloc`, reduced to whether it returns memory and the pages its heap growth takes. -/
def kmalloc : Bool × Kernel :=
  match k.grants with
  | .fail :: gs => (false, { k with grants := gs })
  | .grow n :: gs =>
    ((k.pmm.allocatePages n).1 != 0,
      { k with
        pmm := (k.pmm.allocatePages n).2.toHeap
          (if (k.pmm.allocatePages n).1 = 0 then [] else pagesFrom (k.pmm.allocatePages n).1 n)
        grants := gs })
  | gs => (true, { k with grants := gs.tail })

/-- `memset(PHYS_TO_VIRT(pa), 0, pages * PAGE_SIZE)`. -/
def memsetPages (pa pages : Nat) : Kernel :=
  { k with frame := fun p off => if pa ≤ p ∧ p < pa + pages * 4096 then 0 else k.frame p off }

/-- `memcpy` of whole pages. -/
def memcpyPages (dst src pages : Nat) : Kernel :=
  { k with frame := fun p off =>
      if dst ≤ p ∧ p < dst + pages * 4096 then k.frame (p - dst + src) off else k.frame p off }

/-- `tlbi vae1`: the ASID is in bits 63:48 of the operand, the page number in bits 43:0. -/
def tlbiVae1 (xt : Nat) : Kernel :=
  { k with tlb := fun a v w => k.tlb a v w && !(a == xt / 2 ^ 48 % 2 ^ 16 && v == xt % 2 ^ 44) }

/-- `tlbi aside1`. -/
def tlbiAside1 (xt : Nat) : Kernel :=
  { k with tlb := fun a v w => k.tlb a v w && !(a == xt / 2 ^ 48 % 2 ^ 16) }

/-- `tlbi vmalle1`. -/
def tlbiVmalle1 : Kernel := { k with tlb := fun _ _ _ => false }

/-- The listed pages are distinct and allocated. -/
def Owns (xs : List Nat) : Prop := Ledger k.pmm.Allocated xs

/-- The pages of the user page table rooted at `l0`. -/
def tablePages (l0 : Nat) : List Nat := l0 :: (k.tables l0).pages

/-- The descriptor the hardware finds for `va` in the table rooted at `l0`. -/
def leaf (l0 va : Nat) : Option Pte := (k.tables l0).leaf va

/-- The pages taken between `k` and `k'` are `xs` and the pages by which the kernel heap grew. -/
def Grown (k' : Kernel) (xs : List Nat) : Prop :=
  ∃ hs, k'.pmm.heap = hs ++ k.pmm.heap ∧ Taken k.pmm.Allocated k'.pmm.Allocated (xs ++ hs)

end

/-! ## Steps of the allocators -/

/-- Only the allocator and the answers left changed. -/
def PmmStep (k k' : Kernel) : Prop :=
  ∃ p gs, p.cfg = k.pmm.cfg ∧ k' = { k with pmm := p, grants := gs }

lemma PmmStep.refl (k : Kernel) : PmmStep k k := ⟨k.pmm, k.grants, rfl, rfl⟩

lemma PmmStep.trans {k'' : Kernel} (h : PmmStep k k') (h' : PmmStep k' k'') : PmmStep k k'' := by
  obtain ⟨p, gs, hc, rfl⟩ := h
  obtain ⟨p', gs', hc', rfl⟩ := h'
  exact ⟨p', gs', hc'.trans hc, rfl⟩

variable {F : List Nat} {count pa x : Nat}

/-- A page request fails without taking anything, or takes exactly the pages it returns. -/
lemma pmmAllocatePages_cases (h : k.pmmAllocatePages count = (pa, k')) :
    PmmStep k k' ∧ ((pa = 0 ∧ k'.pmm = k.pmm) ∨ (pa ≠ 0 ∧
      Taken k.pmm.Allocated k'.pmm.Allocated (pagesFrom pa count))) := by
  unfold pmmAllocatePages at h
  split at h
  · cases h
    exact ⟨⟨_, _, rfl, rfl⟩, .inl ⟨rfl, rfl⟩⟩
  obtain ⟨hc, hcases⟩ := Pmm.allocatePages_cases (Prod.mk.eta (p := k.pmm.allocatePages count)).symm
  cases h
  refine ⟨⟨_, _, hc, rfl⟩, ?_⟩
  rcases hcases with ⟨h0, hp⟩ | ⟨hne, -, ht⟩
  · exact .inl ⟨h0, hp⟩
  · exact .inr ⟨hne, ht⟩

lemma pmmAllocatePage_eq (k : Kernel) : k.pmmAllocatePage = k.pmmAllocatePages 1 := by
  unfold pmmAllocatePage pmmAllocatePages
  split <;> simp [Pmm.allocatePages]

lemma pmmAllocatePage_cases (h : k.pmmAllocatePage = (pa, k')) :
    PmmStep k k' ∧ ((pa = 0 ∧ k'.pmm = k.pmm) ∨ (pa ≠ 0 ∧
      Taken k.pmm.Allocated k'.pmm.Allocated [pa])) := by
  rw [pmmAllocatePage_eq] at h
  simpa only [pagesFrom_one] using pmmAllocatePages_cases h

/-- `kmalloc` never gives a page back; what its growth takes belongs to the heap. -/
lemma kmalloc_grown {b : Bool} (h : k.kmalloc = (b, k')) : PmmStep k k' ∧ Grown k k' [] := by
  unfold kmalloc at h
  split at h
  · cases h
    exact ⟨⟨_, _, rfl, rfl⟩, [], rfl, taken_nil _⟩
  · rename_i n gs _
    obtain ⟨hc, hcases⟩ := Pmm.allocatePages_cases (Prod.mk.eta (p := k.pmm.allocatePages n)).symm
    have hheap := Pmm.allocatePages_heap k.pmm n
    cases h
    refine ⟨⟨(k.pmm.allocatePages n).2.toHeap _, _, hc, rfl⟩, ?_⟩
    rcases hcases with ⟨h0, hp⟩ | ⟨hne, -, ht⟩
    · rw [if_pos h0, hp]
      exact ⟨[], rfl, taken_nil _⟩
    · rw [if_neg hne]
      exact ⟨_, congrArg (pagesFrom (k.pmm.allocatePages n).1 n ++ ·) hheap, ht⟩
  · cases h
    exact ⟨⟨_, _, rfl, rfl⟩, [], rfl, taken_nil _⟩

lemma pmmAllocatePages_heap (h : k.pmmAllocatePages count = (pa, k')) : k'.pmm.heap = k.pmm.heap := by
  unfold pmmAllocatePages at h
  split at h
  · cases h
    rfl
  · cases h
    exact Pmm.allocatePages_heap k.pmm count

/-- A page request that succeeded took what it returned. -/
lemma pmmAllocatePages_grown (h : k.pmmAllocatePages count = (pa, k')) (h0 : pa ≠ 0) :
    Grown k k' (pagesFrom pa count) := by
  obtain ⟨-, ⟨hz, -⟩ | ⟨-, ht⟩⟩ := pmmAllocatePages_cases h
  · exact absurd hz h0
  · exact ⟨[], pmmAllocatePages_heap h, by rw [append_nil]; exact ht⟩

lemma pmmFreeList_step (k : Kernel) (xs : List Nat) : PmmStep k (k.pmmFreeList xs) :=
  ⟨_, _, Pmm.freeList_cfg _ _, rfl⟩

/-! ## Exact accounts

`Grown` leaves nothing out: the pages allocated afterwards are those allocated before, the listed ones
and the new pages of the heap. -/

namespace Grown
variable {k'' : Kernel}

lemma of_pmm (h : k'.pmm = k.pmm) : Grown k k' [] :=
  ⟨[], congrArg Pmm.heap h, by rw [h]; exact taken_nil _⟩

lemma refl (k : Kernel) : Grown k k [] := of_pmm rfl

lemma perm (h : Grown k k' xs) (hp : xs.Perm ys) : Grown k k' ys := by
  obtain ⟨hs, heap, ht⟩ := h
  exact ⟨hs, heap, ht.perm (hp.append_right hs)⟩

lemma trans (h : Grown k k' xs) (h' : Grown k' k'' ys) : Grown k k'' (ys ++ xs) := by
  obtain ⟨hs, heap, ht⟩ := h
  obtain ⟨hs', heap', ht'⟩ := h'
  refine ⟨hs' ++ hs, by rw [heap', heap, append_assoc], (ht.trans ht').perm ?_⟩
  grind

/-- Part of what was taken goes back. -/
lemma free (h : Grown k k' (xs ++ ys)) : Grown k (k'.pmmFreeList xs) ys := by
  obtain ⟨hs, heap, ht⟩ := h
  rw [append_assoc] at ht
  exact ⟨hs, (Pmm.freeList_heap k'.pmm xs).trans heap, ht.give (Pmm.freeList_given k'.pmm xs)⟩

variable (h : Grown k k' xs)
include h

lemma mono (hx : k.pmm.Allocated x) : k'.pmm.Allocated x := by
  obtain ⟨hs, -, ht⟩ := h
  exact (ht.iff x).mpr (.inr hx)

lemma fresh (hx : x ∈ xs) : ¬ k.pmm.Allocated x := by
  obtain ⟨hs, -, ht⟩ := h
  exact ht.fresh x (mem_append_left hs hx)

lemma taken (hx : x ∈ xs) : k'.pmm.Allocated x := by
  obtain ⟨hs, -, ht⟩ := h
  exact (ht.iff x).mpr (.inl (mem_append_left hs hx))

lemma owns (hF : k.Owns F) : k'.Owns (xs ++ F) := by
  obtain ⟨hs, -, ht⟩ := h
  refine Ledger.sublist (Ledger.take hF ht) ?_
  rw [append_assoc]
  exact (sublist_append_right hs F).append_left xs

end Grown

/-! ## Ownership -/

lemma Owns.take (h : k.Owns F) (ht : Taken k.pmm.Allocated k'.pmm.Allocated xs) : k'.Owns (xs ++ F) :=
  Ledger.take h ht

lemma Owns.free (h : k.Owns (xs ++ F)) : (k.pmmFreeList xs).Owns F :=
  Ledger.give h (Pmm.freeList_given k.pmm xs)

lemma Owns.perm (h : k.Owns xs) (hp : xs.Perm ys) : k.Owns ys :=
  Ledger.perm h hp

lemma Owns.sublist (h : k.Owns xs) (hs : ys.Sublist xs) : k.Owns ys :=
  Ledger.sublist h hs

end Kernel
end FermiOs
