import FermiOs.Library.Ledger
import FermiOs.Mm.Layout

/-!
# Physical memory manager

The bitmap allocator of `mm/pmm/pmm.c`. Bit `pfn` of the bitmap is set when the page is in use; the
pages below `reservedPages` hold the kernel image and the bitmap and stay set forever, which the
structure carries as a field. Single pages are found first-fit from frame `0`, runs first-fit from
the first unreserved frame. The allocator's contract is stated with the ledger vocabulary:
`Pmm.allocatePages_taken` and `Pmm.freePages_given`.
-/

namespace FermiOs
open Library
variable {bitmap : Nat → Bool}

/-- What the boot code and the linker fix: the size of RAM, the reserved part of it and the number
of pages of the kernel's `.text`/`.rodata` window, which starts at the base of RAM. The window ends
below the zone the user stack may grow into. -/
structure MemCfg where
  totalPages : Nat
  reservedPages : Nat
  textPages : Nat
  reserved_le : reservedPages ≤ totalPages
  text_le : textPages ≤ reservedPages
  text_fits : textPages ≤ 960
  total_le : totalPages ≤ 2 ^ 28

/-- Allocator state. `heap` lists the pages that went to the kernel heap, which never returns them; the
code does not read it. -/
structure Pmm where
  cfg : MemCfg
  bitmap : Nat → Bool
  usedPages : Nat
  heap : List Nat
  reserved_set : ∀ pfn, pfn < cfg.reservedPages → bitmap pfn = true

/-- Physical address of a page frame. -/
def pfnToPhys (pfn : Nat) : Nat := memStart + pfn * 4096

/-- The machine the kernel is built for: `MEM_SIZE` is 8 GiB; the image and the bitmap take the
first megabyte, 256 KiB of which are the window. -/
def virtCfg : MemCfg where
  totalPages := 0x200000
  reservedPages := 256
  textPages := 64
  reserved_le := by decide
  text_le := by decide
  text_fits := by decide
  total_le := by decide

namespace Pmm

/-- `pmm_init`: the kernel image, its stack and the bitmap are reserved. -/
def init (cfg : MemCfg) : Pmm where
  cfg := cfg
  bitmap := fun pfn => decide (pfn < cfg.reservedPages)
  usedPages := cfg.reservedPages
  heap := []
  reserved_set := fun _ h => decide_eq_true h

/-- `bitmap_set`. -/
def bitmapSet (p : Pmm) (pfn : Nat) : Pmm where
  cfg := p.cfg
  bitmap := fun q => if q = pfn then true else p.bitmap q
  usedPages := p.usedPages
  heap := p.heap
  reserved_set := by
    intro q hq
    by_cases h : q = pfn <;> simp [h, p.reserved_set q hq]

/-- `bitmap_clear`, only ever applied to unreserved frames. -/
def bitmapClear (p : Pmm) (pfn : Nat) (h : p.cfg.reservedPages ≤ pfn) : Pmm where
  cfg := p.cfg
  bitmap := fun q => if q = pfn then false else p.bitmap q
  usedPages := p.usedPages
  heap := p.heap
  reserved_set := by
    intro q hq
    have hne : q ≠ pfn := by omega
    simp [hne, p.reserved_set q hq]

/-- Set the bits of `count` frames from `pfn`. -/
def bitmapSetRun (p : Pmm) (pfn : Nat) : Nat → Pmm
  | 0 => p
  | n + 1 => (p.bitmapSetRun pfn n).bitmapSet (pfn + n)

/-- The lowest clear bit among `left` frames from `pfn`. -/
def scanFree (bitmap : Nat → Bool) : Nat → Nat → Option Nat
  | 0, _ => none
  | left + 1, pfn => if bitmap pfn then scanFree bitmap left (pfn + 1) else some pfn

/-- The run search of `pmm_allocate_pages`: `left` frames remain from `pfn`, and the `runLength`
frames before `pfn`, from `runStart` on, are clear. -/
def scanRun (bitmap : Nat → Bool) (count : Nat) : Nat → Nat → Nat → Nat → Option Nat
  | 0, _, _, _ => none
  | left + 1, pfn, runStart, runLength =>
    if bitmap pfn then scanRun bitmap count left (pfn + 1) runStart 0
    else
      let runStart := if runLength = 0 then pfn else runStart
      if runLength + 1 = count then some runStart
      else scanRun bitmap count left (pfn + 1) runStart (runLength + 1)

/-- `pmm_allocate_page`: the address of the page, `0` when none is free. -/
def allocatePage (p : Pmm) : Nat × Pmm :=
  match scanFree p.bitmap p.cfg.totalPages 0 with
  | none => (0, p)
  | some pfn => (pfnToPhys pfn, { p.bitmapSet pfn with usedPages := p.usedPages + 1 })

/-- `pmm_allocate_pages`. -/
def allocatePages (p : Pmm) (count : Nat) : Nat × Pmm :=
  if count = 0 then (0, p)
  else if count = 1 then p.allocatePage
  else
    match scanRun p.bitmap count (p.cfg.totalPages - p.cfg.reservedPages) p.cfg.reservedPages 0 0
      with
    | none => (0, p)
    | some runStart =>
      (pfnToPhys runStart,
        { p.bitmapSetRun runStart count with usedPages := p.usedPages + count })

/-- `pmm_free_page`: addresses that are not an allocated, unreserved page are ignored. -/
def freePage (p : Pmm) (physAddr : Nat) : Pmm :=
  if physAddr < memStart ∨ memStart + p.cfg.totalPages * 4096 ≤ physAddr then p
  else if physAddr % 4096 ≠ 0 then p
  else
    let pfn := (physAddr - memStart) / 4096
    if h : pfn < p.cfg.reservedPages then p
    else if p.bitmap pfn = false then p
    else { p.bitmapClear pfn (Nat.le_of_not_lt h) with usedPages := p.usedPages - 1 }

/-- Frees a list of pages one after another. -/
def freeList (p : Pmm) : List Nat → Pmm
  | [] => p
  | a :: as => (p.freePage a).freeList as

/-- Pages become part of the kernel heap. -/
def toHeap (p : Pmm) (xs : List Nat) : Pmm := { p with heap := xs ++ p.heap }

/-- The page at address `pa` is an unreserved page marked in use. -/
def Allocated (p : Pmm) (pa : Nat) : Prop :=
  ∃ pfn, p.cfg.reservedPages ≤ pfn ∧ pfn < p.cfg.totalPages ∧ p.bitmap pfn = true ∧
    pa = pfnToPhys pfn

lemma pfnToPhys_inj {a b : Nat} (h : pfnToPhys a = pfnToPhys b) : a = b := by
  simp only [pfnToPhys] at h
  omega

lemma allocated_pfnToPhys (p : Pmm) (pfn : Nat) : p.Allocated (pfnToPhys pfn) ↔
      p.cfg.reservedPages ≤ pfn ∧ pfn < p.cfg.totalPages ∧ p.bitmap pfn = true := by
  constructor
  · rintro ⟨q, h1, h2, h3, h4⟩
    rw [pfnToPhys_inj h4]
    exact ⟨h1, h2, h3⟩
  · rintro ⟨h1, h2, h3⟩
    exact ⟨pfn, h1, h2, h3, rfl⟩

variable {count pa pfn r : Nat} {p' : Pmm}

/-- Allocated pages are page-aligned RAM above the reserved part. -/
lemma Allocated.bounds {p : Pmm} (h : p.Allocated pa) :
    pa % 4096 = 0 ∧ memStart + p.cfg.reservedPages * 4096 ≤ pa ∧ pa < 2 ^ 48 := by
  obtain ⟨pfn, h1, h2, -, rfl⟩ := h
  have := p.cfg.total_le
  simp only [pfnToPhys, memStart]
  omega

lemma Allocated.ne_zero {p : Pmm} (h : p.Allocated pa) : pa ≠ 0 := by
  have := h.bounds.2.1
  simp only [memStart] at this
  omega

/-! ## Searching -/

/-- `count` clear frames from `r` on, among those from `lo` to `hi`. -/
structure ClearRun (bitmap : Nat → Bool) (lo hi count r : Nat) : Prop where
  low : lo ≤ r
  high : r + count ≤ hi
  clear : ∀ q, r ≤ q → q < r + count → bitmap q = false

/-- The search for a run comes to the lowest one, if there is one. By induction on the frames that
remain: the last `runLength` frames are clear, and no run starts before them. -/
lemma scanRun_lowest {lo hi left runStart runLength : Nat} (hhi : pfn + left = hi)
    (hlen : runLength < count) (hlo : lo + runLength ≤ pfn)
    (hrun : runLength ≠ 0 → runStart + runLength = pfn)
    (hclear : ∀ q, pfn ≤ q + runLength → q < pfn → bitmap q = false)
    (hlow : ∀ r', ClearRun bitmap lo hi count r' → pfn ≤ r' + runLength) :
    (scanRun bitmap count left pfn runStart runLength = none ∧ ∀ r', ¬ ClearRun bitmap lo hi count r') ∨
      ∃ r, scanRun bitmap count left pfn runStart runLength = some r ∧
        ClearRun bitmap lo hi count r ∧ ∀ r', ClearRun bitmap lo hi count r' → r ≤ r' := by
  induction left generalizing pfn runStart runLength with
  | zero =>
    refine .inl ⟨rfl, fun r' h => ?_⟩
    have h1 := hlow r' h
    have h2 := h.high
    omega
  | succ left ih =>
    rw [scanRun]
    cases hbit : bitmap pfn with
    | true =>
      -- no run contains the frame, so that all of them start behind it
      refine ih (by omega) (by omega) (by omega) (fun h => absurd rfl h) (by omega) fun r' h => ?_
      have h1 := hlow r' h
      by_contra hle
      have h2 := h.clear pfn (by omega) (by omega)
      rw [hbit] at h2
      cases h2
    | false =>
      rw [if_neg Bool.false_ne_true]
      dsimp only
      have hnew : (if runLength = 0 then pfn else runStart) + (runLength + 1) = pfn + 1 := by
        split_ifs with h0
        · omega
        · have := hrun h0
          omega
      generalize (if runLength = 0 then pfn else runStart) = start at hnew ⊢
      have hclear' : ∀ q, pfn + 1 ≤ q + (runLength + 1) → q < pfn + 1 → bitmap q = false := by
        intro q h1 h2
        by_cases hq : q = pfn
        · rw [hq, hbit]
        · exact hclear q (by omega) (by omega)
      split_ifs with hcount
      · refine .inr ⟨_, rfl, ⟨by omega, by omega, fun q h1 h2 => hclear' q (by omega) (by omega)⟩,
          fun r' h => ?_⟩
        have := hlow r' h
        omega
      · refine ih (by omega) (by omega) (by omega) (fun _ => hnew) hclear' fun r' h => ?_
        have := hlow r' h
        omega

/-- The search for one page is the search for a run of one. -/
lemma scanFree_eq (left runStart : Nat) :
    scanFree bitmap left pfn = scanRun bitmap 1 left pfn runStart 0 := by
  induction left generalizing pfn with
  | zero => rfl
  | succ left ih =>
    rw [scanFree, scanRun, ih]
    rfl

/-- The frame the search starts from. -/
def firstFrame (reserved count : Nat) : Nat := if count = 1 then 0 else reserved

lemma firstFrame_le (reserved count : Nat) : firstFrame reserved count ≤ reserved := by
  rw [firstFrame]
  split
  · exact Nat.zero_le _
  · exact le_rfl

/-- With the reserved frames in use, both searches come to the lowest run. -/
lemma search_lowest {reserved total : Nat} (hle : reserved ≤ total)
    (hres : ∀ q, q < reserved → bitmap q = true) (hc : count ≠ 0) :
    (scanRun bitmap count (total - firstFrame reserved count) (firstFrame reserved count) 0 0 = none ∧
        ∀ r, ¬ ClearRun bitmap 0 total count r) ∨
      ∃ r, scanRun bitmap count (total - firstFrame reserved count) (firstFrame reserved count) 0 0 =
          some r ∧ reserved ≤ r ∧ ClearRun bitmap 0 total count r ∧
        ∀ r', ClearRun bitmap 0 total count r' → r ≤ r' := by
  have hlow : ∀ r', ClearRun bitmap 0 total count r' → reserved ≤ r' := by
    intro r' h
    by_contra hlt
    have hclear := h.clear r' le_rfl (by omega)
    rw [hres r' (by omega)] at hclear
    cases hclear
  have hfirst := firstFrame_le reserved count
  refine Or.imp_right ?_ (scanRun_lowest (Nat.add_sub_cancel' (hfirst.trans hle))
    (Nat.pos_of_ne_zero hc) (Nat.zero_le _) (fun h => absurd rfl h) (by omega)
    fun r' h => hfirst.trans (hlow r' h))
  rintro ⟨r, hsome, hrun, hlowest⟩
  exact ⟨r, hsome, hlow r hrun, hrun, hlowest⟩

/-! ## Contract -/

@[simp] lemma bitmapSetRun_cfg (p : Pmm) (pfn n : Nat) : (p.bitmapSetRun pfn n).cfg = p.cfg := by
  induction n with
  | zero => rfl
  | succ n ih => simpa [bitmapSetRun, bitmapSet] using ih

lemma bitmapSetRun_bitmap (p : Pmm) (pfn n q : Nat) :
    (p.bitmapSetRun pfn n).bitmap q = true ↔ (pfn ≤ q ∧ q < pfn + n) ∨ p.bitmap q = true := by
  induction n with
  | zero =>
    constructor
    · exact .inr
    · rintro (h | h)
      · omega
      · exact h
  | succ n ih =>
    simp only [bitmapSetRun, bitmapSet]
    by_cases hq : q = pfn + n
    · simp [hq]
    simp only [hq, if_false, ih]
    constructor
    · rintro (h | h)
      · exact .inl (by omega)
      · exact .inr h
    · rintro (h | h)
      · exact .inl (by omega)
      · exact .inr h

/-- Setting a clear, unreserved, in-range run of bits takes exactly its pages. -/
lemma taken_of_run {p : Pmm} (hcfg : p'.cfg = p.cfg)
    (hbits : ∀ q, p'.bitmap q = true ↔ (r ≤ q ∧ q < r + count) ∨ p.bitmap q = true)
    (hlo : p.cfg.reservedPages ≤ r) (hhi : r + count ≤ p.cfg.totalPages)
    (hclear : ∀ q, r ≤ q → q < r + count → p.bitmap q = false) :
    Taken p.Allocated p'.Allocated (pagesFrom (pfnToPhys r) count) := by
  have hmem : ∀ x, x ∈ pagesFrom (pfnToPhys r) count ↔
      ∃ q, r ≤ q ∧ q < r + count ∧ x = pfnToPhys q := by
    intro x
    rw [mem_pagesFrom]
    constructor
    · rintro ⟨i, hi, rfl⟩
      exact ⟨r + i, by omega, by omega, by simp only [pfnToPhys]; omega⟩
    · rintro ⟨q, h1, h2, rfl⟩
      exact ⟨q - r, by omega, by simp only [pfnToPhys]; omega⟩
  refine ⟨pagesFrom_nodup _ _, ?_, ?_⟩
  · intro x hx hal
    obtain ⟨q, h1, h2, rfl⟩ := (hmem x).mp hx
    have := ((allocated_pfnToPhys p q).mp hal).2.2
    rw [hclear q h1 h2] at this
    cases this
  intro x
  rw [hmem]
  constructor
  · rintro ⟨q, h1, h2, h3, rfl⟩
    rcases (hbits q).mp h3 with hq | hq
    · exact .inl ⟨q, hq.1, hq.2, rfl⟩
    · exact .inr ⟨q, hcfg ▸ h1, hcfg ▸ h2, hq, rfl⟩
  · rintro (⟨q, h1, h2, rfl⟩ | ⟨q, h1, h2, h3, rfl⟩)
    · exact ⟨q, by rw [hcfg]; omega, by rw [hcfg]; omega, (hbits q).mpr (.inl ⟨h1, h2⟩), rfl⟩
    · exact ⟨q, by rw [hcfg]; exact h1, by rw [hcfg]; exact h2, (hbits q).mpr (.inr h3), rfl⟩

lemma allocatePages_eq (p : Pmm) (hc : count ≠ 0) : p.allocatePages count =
    match scanRun p.bitmap count (p.cfg.totalPages - firstFrame p.cfg.reservedPages count)
      (firstFrame p.cfg.reservedPages count) 0 0 with
    | none => (0, p)
    | some r => (pfnToPhys r, { p.bitmapSetRun r count with usedPages := p.usedPages + count }) := by
  rw [allocatePages, if_neg hc]
  split_ifs with hone
  · subst hone
    rw [allocatePage, scanFree_eq _ 0]
    rfl
  · rw [firstFrame, if_neg hone]

/-- **Allocation** either fails and changes nothing, or takes exactly the pages it returns. -/
lemma allocatePages_cases {p : Pmm} (h : p.allocatePages count = (pa, p')) :
    p'.cfg = p.cfg ∧ ((pa = 0 ∧ p' = p) ∨ (pa ≠ 0 ∧ p'.usedPages = p.usedPages + count ∧
      Taken p.Allocated p'.Allocated (pagesFrom pa count))) := by
  by_cases hc : count = 0
  · rw [allocatePages, if_pos hc] at h
    cases h
    exact ⟨rfl, .inl ⟨rfl, rfl⟩⟩
  rw [allocatePages_eq p hc] at h
  rcases search_lowest p.cfg.reserved_le p.reserved_set hc with ⟨hscan, -⟩ | ⟨r, hscan, hlo, hrun, -⟩
  · rw [hscan] at h
    cases h
    exact ⟨rfl, .inl ⟨rfl, rfl⟩⟩
  · rw [hscan] at h
    cases h
    exact ⟨by simp, .inr ⟨by simp [pfnToPhys, memStart], rfl, taken_of_run (by simp)
      (bitmapSetRun_bitmap p r count) hlo hrun.high hrun.clear⟩⟩

/-- Freeing a page in use clears its bit. -/
lemma freePage_eq {p : Pmm} (h1 : p.cfg.reservedPages ≤ pfn) (h2 : pfn < p.cfg.totalPages)
    (h3 : p.bitmap pfn = true) :
    p.freePage (pfnToPhys pfn) = { p.bitmapClear pfn h1 with usedPages := p.usedPages - 1 } := by
  have hpfn : (pfnToPhys pfn - memStart) / 4096 = pfn := by
    simp only [pfnToPhys]
    omega
  have hlt : ¬ (pfnToPhys pfn < memStart ∨ memStart + p.cfg.totalPages * 4096 ≤ pfnToPhys pfn) := by
    simp only [pfnToPhys]
    omega
  have hal : ¬ (pfnToPhys pfn % 4096 ≠ 0) := by
    simp only [pfnToPhys, memStart]
    omega
  rw [freePage, if_neg hlt, if_neg hal]
  simp only [hpfn, h3]
  rw [dif_neg (by omega)]
  simp

/-- Freeing an allocated page gives back exactly that page. -/
lemma freePage_allocated {p : Pmm} (h : p.Allocated pa) :
    (p.freePage pa).cfg = p.cfg ∧ (p.freePage pa).usedPages = p.usedPages - 1 ∧
      Given p.Allocated (p.freePage pa).Allocated [pa] := by
  obtain ⟨pfn, h1, h2, h3, rfl⟩ := h
  rw [freePage_eq h1 h2 h3]
  refine ⟨rfl, rfl, fun x => ?_⟩
  rw [List.mem_singleton]
  constructor
  · rintro ⟨q, hq1, hq2, hq3, rfl⟩
    simp only [bitmapClear] at hq1 hq2 hq3
    by_cases hq : q = pfn
    · simp [hq] at hq3
    · simp only [hq, if_false] at hq3
      exact ⟨⟨q, hq1, hq2, hq3, rfl⟩, fun he => hq (pfnToPhys_inj he)⟩
  · rintro ⟨⟨q, hq1, hq2, hq3, rfl⟩, hne⟩
    have hq : q ≠ pfn := fun he => hne (by rw [he])
    exact ⟨q, hq1, hq2, by simp [bitmapClear, hq, hq3], rfl⟩

lemma freePage_of_not_allocated {p : Pmm} (h : ¬ p.Allocated pa) : p.freePage pa = p := by
  unfold freePage
  split
  · rfl
  split
  · rfl
  dsimp only
  split
  · rfl
  split
  · rfl
  · rename_i h1 h2 h3 h4
    refine absurd ⟨(pa - memStart) / 4096, by omega, by omega, by simpa using h4, ?_⟩ h
    simp only [pfnToPhys, memStart] at *
    omega

@[simp] lemma freePage_cfg (p : Pmm) (pa : Nat) : (p.freePage pa).cfg = p.cfg := by
  by_cases h : p.Allocated pa
  · exact (freePage_allocated h).1
  · rw [freePage_of_not_allocated h]

lemma freePage_given (p : Pmm) (pa : Nat) : Given p.Allocated (p.freePage pa).Allocated [pa] := by
  by_cases h : p.Allocated pa
  · exact (freePage_allocated h).2.2
  · rw [freePage_of_not_allocated h]
    intro x
    rw [List.mem_singleton]
    exact ⟨fun hx => ⟨hx, fun he => h (he ▸ hx)⟩, And.left⟩

@[simp] lemma freeList_cfg (p : Pmm) (xs : List Nat) : (p.freeList xs).cfg = p.cfg := by
  induction xs generalizing p with
  | nil => rfl
  | cons a as ih => rw [freeList, ih, freePage_cfg]

/-- **Freeing** a list gives back exactly the pages on it. -/
lemma freeList_given (p : Pmm) (xs : List Nat) : Given p.Allocated (p.freeList xs).Allocated xs := by
  induction xs generalizing p with
  | nil => exact given_nil _
  | cons a as ih => exact (freePage_given p a).trans (ih (p.freePage a))

section
variable (p : Pmm)

@[simp] lemma bitmapSetRun_heap (pfn n : Nat) : (p.bitmapSetRun pfn n).heap = p.heap := by
  induction n with
  | zero => rfl
  | succ n ih => exact ih

/-- Requests and frees do not touch the list of heap pages. -/
lemma allocatePages_heap (count : Nat) : (p.allocatePages count).2.heap = p.heap := by
  unfold allocatePages allocatePage
  split
  · rfl
  split
  · split <;> rfl
  · split
    · rfl
    · exact bitmapSetRun_heap ..

lemma freePage_heap (pa : Nat) : (p.freePage pa).heap = p.heap := by
  unfold freePage
  dsimp only
  split
  · rfl
  split
  · rfl
  · split
    · rfl
    · split <;> rfl

@[simp] lemma freeList_heap (xs : List Nat) : (p.freeList xs).heap = p.heap := by
  induction xs generalizing p with
  | nil => rfl
  | cons a as ih => rw [freeList, ih, freePage_heap]

end

lemma freeList_append (p : Pmm) (xs ys : List Nat) :
    p.freeList (xs ++ ys) = (p.freeList xs).freeList ys := by
  induction xs generalizing p with
  | nil => rfl
  | cons a as ih => exact ih (p.freePage a)

end Pmm
end FermiOs
