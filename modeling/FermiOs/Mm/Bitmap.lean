import FermiOs.Library.BitWords
import FermiOs.Library.Run
import FermiOs.Mm.Pmm

/-!
# The bitmap of the page allocator

`mm/pmm/pmm.c` on the words of its bitmap, for any memory size: the tail of the last word, the loop
that skips full words, and the search for a run. The bits above the last page are set by `pmm_init` and
keep the allocator from handing out pages that do not exist. `pmm_free_page` compares an address with
the end of the region, not with the number of pages: if the region ends inside a page, the address of
that page passes all checks, and its bit, which stands for no page, is cleared and counted.
-/

namespace FermiOs
open Library List
variable {a count q : Nat}

/-- The variables of `pmm.c`. Behind the bitmap, `words` goes on with whatever is there. -/
structure PmmWords where
  words : BitWords
  bitmapSize : Nat
  totalPages : Nat
  usedPages : Nat
  reservedPages : Nat
  regionStart : Nat
  regionEnd : Nat

namespace PmmWords

/-- Set `n` bits from `pfn` on. -/
def setRun (w : BitWords) (pfn : Nat) : Nat → BitWords
  | 0 => w
  | n + 1 => (setRun w pfn n).setBit (pfn + n)

/-- The bitmap zeroed, with the bits of its last word that stand for no page. -/
def freshWords (totalPages : Nat) (behind : BitWords) : BitWords := fun i =>
  if i < (totalPages + 63) / 64 then
    if totalPages % 64 ≠ 0 ∧ i = (totalPages + 63) / 64 - 1 then
      ~~~((1#64 <<< (totalPages % 64)) - 1#64)
    else 0#64
  else behind i

/-- `pmm_init`: the kernel ends at `kernelEnd`, the bitmap lies on the page behind it. -/
def init (kernelEnd memSize : Nat) (behind : BitWords) : PmmWords :=
  let totalPages := memSize / 4096
  let bitmapSize := (totalPages + 63) / 64
  let bitmap := pageAlignUp kernelEnd
  let reservedPages := add64 (pageAlignUp (add64 bitmap (bitmapSize * 8))) (2 ^ 64 - memStart) / 4096
  { words := setRun (freshWords totalPages behind) 0 reservedPages
    bitmapSize := bitmapSize
    totalPages := totalPages
    usedPages := reservedPages
    reservedPages := reservedPages
    regionStart := memStart
    regionEnd := add64 memStart memSize }

/-- The address of a page. -/
def address (w : PmmWords) (pfn : Nat) : Nat := add64 w.regionStart (pfn * 4096)

/-- The bits of one word from `pfn` on: nothing found, or the call ends, with a page or without. -/
def wordLoop (w : PmmWords) : Nat → Nat → Option (Option Nat)
  | 0, _ => none
  | n + 1, pfn =>
    if w.totalPages ≤ pfn then some none
    else if w.words.test pfn then wordLoop w n (pfn + 1)
    else some (some pfn)

/-- The words from `i` on. -/
def pageLoop (w : PmmWords) : Nat → Nat → Option Nat
  | 0, _ => none
  | n + 1, i =>
    if w.words i = BitVec.allOnes 64 then pageLoop w n (i + 1)
    else
      match wordLoop w 64 (i * 64) with
      | some r => r
      | none => pageLoop w n (i + 1)

/-- `pmm_allocate_page`. -/
def allocatePage (w : PmmWords) : Nat × PmmWords :=
  match pageLoop w w.bitmapSize 0 with
  | none => (0, w)
  | some pfn =>
    (w.address pfn, { w with words := w.words.setBit pfn, usedPages := add64 w.usedPages 1 })

/-- `pmm_allocate_pages`. -/
def allocatePages (w : PmmWords) (count : Nat) : Nat × PmmWords :=
  if count = 0 then (0, w)
  else if count = 1 then w.allocatePage
  else
    match Pmm.scanRun w.words.test count (w.totalPages - w.reservedPages) w.reservedPages 0 0 with
    | none => (0, w)
    | some runStart =>
      (w.address runStart,
        { w with words := setRun w.words runStart count, usedPages := add64 w.usedPages count })

/-- `pmm_free_page`. -/
def freePage (w : PmmWords) (physAddr : Nat) : PmmWords :=
  if physAddr < w.regionStart ∨ w.regionEnd ≤ physAddr then w
  else if physAddr % 4096 ≠ 0 then w
  else
    let pfn := (physAddr - w.regionStart) / 4096
    if pfn < w.reservedPages then w
    else if w.words.test pfn = false then w
    else { w with words := w.words.clearBit pfn, usedPages := add64 w.usedPages (2 ^ 64 - 1) }

/-- `pmm_free_pages`; the address wraps. -/
def freePages (w : PmmWords) (physAddr : Nat) : Nat → PmmWords
  | 0 => w
  | n + 1 => (w.freePages physAddr n).freePage (add64 physAddr (n * 4096))

/-! ## Bits -/

lemma test_setRun (w : BitWords) (pfn n q : Nat) :
    (setRun w pfn n).test q = true ↔ (pfn ≤ q ∧ q < pfn + n) ∨ w.test q = true := by
  induction n with
  | zero =>
    constructor
    · exact .inr
    · rintro (h | h)
      · omega
      · exact h
  | succ n ih =>
    rw [setRun, BitWords.test_setBit, Bool.or_eq_true, decide_eq_true_iff, ih]
    constructor
    · rintro (rfl | h | h)
      · exact .inl (by omega)
      · exact .inl (by omega)
      · exact .inr h
    rintro (h | h)
    · by_cases hq : q = pfn + n
      · exact .inl hq
      · exact .inr (.inl (by omega))
    · exact .inr (.inr h)

/-- Setting clear bits counts them. -/
lemma count_setRun (w : BitWords) {pfn bound : Nat} (n : Nat) (hn : pfn + n ≤ bound)
    (hclear : ∀ q, pfn ≤ q → q < pfn + n → w.test q = false) :
    (setRun w pfn n).count bound = w.count bound + n := by
  induction n with
  | zero => rfl
  | succ n ih =>
    rw [setRun, BitWords.count_setBit, ih (by omega) fun q h h' => hclear q h (by omega)]
    · rfl
    · omega
    rw [Bool.eq_false_iff]
    intro hset
    rcases (test_setRun w pfn n _).mp hset with h | h
    · omega
    · rw [hclear _ (by omega) (by omega)] at h
      cases h

/-- In the fresh bitmap just the bits that stand for no page are set. -/
lemma test_freshWords {totalPages : Nat} (behind : BitWords) (hq : q < (totalPages + 63) / 64 * 64) :
    (freshWords totalPages behind).test q = decide (totalPages ≤ q) := by
  rw [BitWords.test_eq, freshWords, if_pos (by omega)]
  by_cases hlast : totalPages % 64 ≠ 0 ∧ q / 64 = (totalPages + 63) / 64 - 1
  · have hk : totalPages % 64 < 64 := Nat.mod_lt _ (by decide)
    have hpos : 0 < 2 ^ (totalPages % 64) := Nat.two_pow_pos _
    have hmask : (1#64 <<< (totalPages % 64)) - 1#64 = BitVec.ofNat 64 (2 ^ (totalPages % 64) - 1) := by
      apply BitVec.eq_of_toNat_eq
      rw [BitVec.toNat_sub, BitVec.toNat_shiftLeft, BitVec.toNat_ofNat, BitVec.toNat_ofNat,
        Nat.shiftLeft_eq]
      omega
    rw [if_pos hlast, hmask, BitVec.getLsbD_not, BitVec.getLsbD_ofNat, Nat.testBit_two_pow_sub_one]
    have hlt : q % 64 < 64 := Nat.mod_lt _ (by decide)
    have hdec : decide (totalPages ≤ q) = !decide (q % 64 < totalPages % 64) := by
      rw [← decide_not]
      exact decide_eq_decide.mpr (by omega)
    rw [hdec]
    simp [hlt]
  · rw [if_neg hlast, BitVec.getLsbD_zero]
    exact (decide_eq_false (by omega)).symm

/-! ## Searching

The two nested loops find the lowest clear bit, as one search over the pages does. -/

lemma scanFree_skip {bits : Nat → Bool} (m : Nat) : ∀ {left pfn : Nat},
    (∀ q, pfn ≤ q → q < pfn + m → bits q = true) →
    Pmm.scanFree bits left pfn = Pmm.scanFree bits (left - m) (pfn + m) := by
  induction m with
  | zero => exact fun _ => rfl
  | succ m ih =>
    intro left pfn h
    cases left with
    | zero => simp [Pmm.scanFree]
    | succ left =>
      rw [Pmm.scanFree, if_pos (h pfn le_rfl (by omega)), ih fun q h1 h2 => h q (by omega) (by omega)]
      congr 1
      · omega
      · omega

section
variable {w : PmmWords}

/-- A word with a clear bit. -/
lemma wordLoop_eq (m : Nat) : ∀ {pfn : Nat}, (∃ q, pfn ≤ q ∧ q < pfn + m ∧ w.words.test q = false) →
    wordLoop w m pfn = some (Pmm.scanFree w.words.test (w.totalPages - pfn) pfn) := by
  induction m with
  | zero => omega
  | succ m ih =>
    rintro pfn ⟨q, h1, h2, hq⟩
    rw [wordLoop]
    split_ifs with hend hset
    · rw [Nat.sub_eq_zero_of_le hend]
      rfl
    · have hne : q ≠ pfn := by
        rintro rfl
        rw [hset] at hq
        cases hq
      have hskip : ∀ q', pfn ≤ q' → q' < pfn + 1 → w.words.test q' = true := by
        intro q' h1 h2
        obtain rfl : q' = pfn := by omega
        exact hset
      rw [ih ⟨q, by omega, by omega, hq⟩, scanFree_skip 1 hskip, Nat.sub_sub]
    · obtain ⟨left, hleft⟩ : ∃ left, w.totalPages - pfn = left + 1 := ⟨w.totalPages - pfn - 1, by omega⟩
      rw [hleft, Pmm.scanFree, if_neg hset]

section
variable (hsize : w.bitmapSize = (w.totalPages + 63) / 64)
include hsize

lemma pageLoop_eq (n : Nat) : ∀ i, i + n = w.bitmapSize →
      pageLoop w n i = Pmm.scanFree w.words.test (w.totalPages - i * 64) (i * 64) := by
  induction n with
  | zero =>
    intro i hi
    have h0 : w.totalPages - i * 64 = 0 := by omega
    rw [h0]
    rfl
  | succ n ih =>
    intro i hi
    rw [pageLoop]
    split_ifs with hones
    · have hset := (BitWords.eq_allOnes_iff w.words i).mp hones
      rw [ih (i + 1) (by omega), scanFree_skip 64 hset]
      congr 1
      · omega
      · omega
    have hex : ∃ q, i * 64 ≤ q ∧ q < i * 64 + 64 ∧ w.words.test q = false := by
      by_contra hno
      refine hones ((BitWords.eq_allOnes_iff w.words i).mpr fun q h1 h2 => ?_)
      by_contra hclear
      exact hno ⟨q, h1, h2, by simpa using hclear⟩
    rw [wordLoop_eq 64 hex]

lemma allocatePages_eq (hc : count ≠ 0) : w.allocatePages count =
    match Pmm.scanRun w.words.test count (w.totalPages - Pmm.firstFrame w.reservedPages count)
      (Pmm.firstFrame w.reservedPages count) 0 0 with
    | none => (0, w)
    | some r => (w.address r,
        { w with words := setRun w.words r count, usedPages := add64 w.usedPages count }) := by
  rw [allocatePages, if_neg hc]
  split_ifs with hone
  · subst hone
    rw [allocatePage, pageLoop_eq hsize _ 0 (zero_add _), zero_mul, Pmm.scanFree_eq _ 0]
    rfl
  · rw [Pmm.firstFrame, if_neg hone]

end

/-- A page allocator of any bits, as far as the reserved pages are in use. -/
structure Placed (w : PmmWords) : Prop where
  start : w.regionStart = memStart
  fits : memStart + w.totalPages * 4096 < 2 ^ 64
  size : w.bitmapSize = (w.totalPages + 63) / 64
  reserved : w.reservedPages ≤ w.totalPages
  bits : ∀ q, q < w.reservedPages → w.words.test q = true

lemma Placed.address_eq (h : w.Placed) (hq : q < w.totalPages) : w.address q = memStart + q * 4096 := by
  rw [address, h.start, add64, Nat.mod_eq_of_lt]
  exact lt_of_le_of_lt (by omega) h.fits

/-- What an allocation does: nothing, or it takes the lowest run of free pages and returns its
address. -/
lemma Placed.allocatePages_cases (h : w.Placed) (hc : count ≠ 0) :
    (w.allocatePages count = (0, w) ∧ ∀ r, ¬ Pmm.ClearRun w.words.test 0 w.totalPages count r) ∨
      ∃ r, w.reservedPages ≤ r ∧ Pmm.ClearRun w.words.test 0 w.totalPages count r ∧
        (∀ r', Pmm.ClearRun w.words.test 0 w.totalPages count r' → r ≤ r') ∧
        w.allocatePages count = (memStart + r * 4096,
          { w with words := setRun w.words r count, usedPages := add64 w.usedPages count }) := by
  rw [allocatePages_eq h.size hc]
  rcases Pmm.search_lowest h.reserved h.bits hc with ⟨hscan, hno⟩ | ⟨r, hscan, hlo, hrun, hlow⟩
  · rw [hscan]
    exact .inl ⟨rfl, hno⟩
  · rw [hscan]
    have hhigh := hrun.high
    refine .inr ⟨r, hlo, hrun, hlow, ?_⟩
    dsimp only
    rw [h.address_eq (by omega)]

/-- **`pmm_allocate_pages`** takes the lowest run of free pages, marks just these and returns where
they start; it returns `0` exactly when there is none, and then changes nothing. -/
theorem allocatePages_lowest (h : w.Placed) {count : Nat} (hc : 1 ≤ count) :
    (∀ r, Pmm.ClearRun w.words.test 0 w.totalPages count r →
        (∀ r', Pmm.ClearRun w.words.test 0 w.totalPages count r' → r ≤ r') →
        (w.allocatePages count).1 = memStart + r * 4096 ∧
          ∀ q, (w.allocatePages count).2.words.test q = true ↔
            (r ≤ q ∧ q < r + count) ∨ w.words.test q = true) ∧
      ((w.allocatePages count).1 = 0 ↔ ∀ r, ¬ Pmm.ClearRun w.words.test 0 w.totalPages count r) ∧
      ((w.allocatePages count).1 = 0 → (w.allocatePages count).2 = w) := by
  rcases h.allocatePages_cases (Nat.pos_iff_ne_zero.mp hc) with ⟨heq, hno⟩ | ⟨r, -, hrun, hlow, heq⟩
  · rw [heq]
    exact ⟨fun r hr => absurd hr (hno r), iff_of_true rfl hno, fun _ => rfl⟩
  have hne : memStart + r * 4096 ≠ 0 := by simp [memStart]
  rw [heq]
  refine ⟨fun r' hr' hlow' => ?_, iff_of_false hne fun hno => hno r hrun, fun h0 => absurd h0 hne⟩
  obtain rfl := (hlow r' hr').antisymm (hlow' r hrun)
  exact ⟨rfl, test_setRun _ _ _⟩

end

/-! ## Runs -/

/-- The calls; one page is `pmm_allocate_page` and `pmm_free_page`. -/
inductive Op
  | alloc (count : Nat)
  | free (physAddr count : Nat)

/-- The addresses `pmm_free_pages` frees. -/
def freed (physAddr count : Nat) : List Nat :=
  (range count).map fun i => add64 physAddr (i * 4096)

/-- A call, and the pages that callers hold. -/
def step (s : PmmWords × List Nat) : Op → PmmWords × List Nat
  | .alloc count =>
    let r := s.1.allocatePages count
    (r.2, if r.1 = 0 then s.2 else pagesFrom r.1 count ++ s.2)
  | .free physAddr count =>
    (s.1.freePages physAddr count, s.2.filter fun a => a ∉ freed physAddr count)

/-- The page that the end of the region cuts off, if it does. -/
def CutOff (w : PmmWords) (physAddr : Nat) : Prop :=
  physAddr = w.regionStart + w.totalPages * 4096 ∧ physAddr < w.regionEnd
deriving Decidable

/-- No free names the page that is cut off. -/
def WholePages (s : PmmWords × List Nat) : Op → Prop
  | .alloc _ => True
  | .free physAddr count => ∀ a ∈ freed physAddr count, ¬ s.1.CutOff a

instance (s : PmmWords × List Nat) (op : Op) : Decidable (WholePages s op) := by
  cases op <;> dsimp only [WholePages] <;> infer_instance

/-- The bookkeeping and the pages held by callers. -/
structure Accounts (w : PmmWords) (held : List Nat) : Prop where
  start : w.regionStart = memStart
  fits : memStart + w.totalPages * 4096 ≤ w.regionEnd
  ends : w.regionEnd < memStart + w.totalPages * 4096 + 4096
  word : w.regionEnd < 2 ^ 64
  size : w.bitmapSize = (w.totalPages + 63) / 64
  reserved : w.reservedPages ≤ w.totalPages
  tail : ∀ q, w.totalPages ≤ q → q < w.bitmapSize * 64 → w.words.test q = true
  used : w.usedPages = w.words.count w.totalPages
  bits : ∀ q, q < w.totalPages →
    (w.words.test q = true ↔ q < w.reservedPages ∨ memStart + q * 4096 ∈ held)
  owned : ∀ a ∈ held, ∃ q, w.reservedPages ≤ q ∧ q < w.totalPages ∧ a = memStart + q * 4096

section
variable {w : PmmWords} {held : List Nat}

section
variable (h : w.Accounts held)
include h

lemma Accounts.placed : w.Placed where
  start := h.start
  fits := h.fits.trans_lt h.word
  size := h.size
  reserved := h.reserved
  bits := fun q hq => (h.bits q (hq.trans_le h.reserved)).mpr (.inl hq)

/-- The counter stays far from 64 bits. -/
lemma Accounts.used_le : w.usedPages ≤ w.totalPages := by
  rw [h.used, BitWords.count]
  exact (Finset.card_filter_le _ _).trans (Finset.card_range _).le

/-- Setting the bits of a run of free pages hands them out. -/
lemma Accounts.take {r : Nat} (hlo : w.reservedPages ≤ r) (hhi : r + count ≤ w.totalPages)
    (hclear : ∀ q, r ≤ q → q < r + count → w.words.test q = false) :
    Accounts { w with words := setRun w.words r count, usedPages := add64 w.usedPages count }
      (pagesFrom (memStart + r * 4096) count ++ held) where
  start := h.start
  fits := h.fits
  ends := h.ends
  word := h.word
  size := h.size
  reserved := h.reserved
  tail := fun q h1 h2 => (test_setRun _ _ _ _).mpr (.inr (h.tail q h1 h2))
  used := by
    have hcount := count_setRun w.words count hhi hclear
    have hle : (setRun w.words r count).count w.totalPages ≤ w.totalPages :=
      (Finset.card_filter_le _ _).trans (Finset.card_range _).le
    have h1 := h.fits
    have h2 := h.word
    rw [add64, h.used, hcount, Nat.mod_eq_of_lt (by omega)]
  bits := by
    intro q hq
    have hold := h.bits q hq
    rw [mem_append, mem_pagesFrom]
    rw [test_setRun, hold]
    constructor
    · rintro (h1 | h1 | h1)
      · exact .inr (.inl ⟨q - r, by omega, by omega⟩)
      · exact .inl h1
      · exact .inr (.inr h1)
    · rintro (h1 | ⟨i, hi, heq⟩ | h1)
      · exact .inr (.inl h1)
      · exact .inl (by omega)
      · exact .inr (.inr h1)
  owned := by
    intro a ha
    rcases mem_append.mp ha with ha | ha
    · obtain ⟨i, hi, rfl⟩ := mem_pagesFrom.mp ha
      refine ⟨r + i, ?_, ?_, by omega⟩
      · show w.reservedPages ≤ r + i
        omega
      · show r + i < w.totalPages
        omega
    · exact h.owned a ha

lemma Accounts.allocatePages_cases (count : Nat) :
    w.allocatePages count = (0, w) ∨ ∃ r, w.reservedPages ≤ r ∧
      Pmm.ClearRun w.words.test 0 w.totalPages count r ∧
      w.allocatePages count = (memStart + r * 4096,
        { w with words := setRun w.words r count, usedPages := add64 w.usedPages count }) := by
  by_cases hc : count = 0
  · exact .inl (if_pos hc)
  rcases h.placed.allocatePages_cases hc with ⟨heq, -⟩ | ⟨r, hlo, hrun, -, heq⟩
  · exact .inl heq
  · exact .inr ⟨r, hlo, hrun, heq⟩

/-- Only the pages on the list matter, not their order. -/
lemma Accounts.congr {held' : List Nat} (hmem : ∀ a, a ∈ held' ↔ a ∈ held) : w.Accounts held' :=
  { h with
    bits := fun q hq => by rw [h.bits q hq, hmem]
    owned := fun a ha => h.owned a ((hmem a).mp ha) }

/-- Freeing a page in use clears its bit. -/
lemma Accounts.freePage_eq (hlo : w.reservedPages ≤ q) (hhi : q < w.totalPages)
    (hset : w.words.test q = true) : w.freePage (memStart + q * 4096) =
      { w with words := w.words.clearBit q, usedPages := add64 w.usedPages (2 ^ 64 - 1) } := by
  have hpfn : (memStart + q * 4096 - w.regionStart) / 4096 = q := by
    rw [h.start]
    omega
  have h1 := h.fits
  have h2 := h.start
  have halign : (memStart + q * 4096) % 4096 = 0 := by
    simp only [memStart]
    omega
  rw [PmmWords.freePage, if_neg (by omega), if_neg (by omega)]
  rw [hpfn, if_neg (by omega), if_neg (by rw [hset]; decide)]

/-- The counter is not zero while a page is in use. -/
lemma Accounts.used_pred (hhi : q < w.totalPages) (hset : w.words.test q = true) :
    add64 w.usedPages (2 ^ 64 - 1) = w.usedPages - 1 := by
  have hpos : 0 < w.words.count w.totalPages :=
    Finset.card_pos.mpr ⟨q, Finset.mem_filter.mpr ⟨Finset.mem_range.mpr hhi, hset⟩⟩
  have hle := h.used_le
  have h1 := h.fits
  have h2 := h.word
  have hused := h.used
  rw [add64]
  omega

/-- Freeing a page that a caller holds gives it back. -/
lemma Accounts.give (ha : a ∈ held) : Accounts (w.freePage a) (held.filter fun x => x ≠ a) := by
  obtain ⟨q, hlo, hhi, rfl⟩ := h.owned a ha
  have hset : w.words.test q = true := (h.bits q hhi).mpr (.inr ha)
  have hne : ∀ q', memStart + q' * 4096 = memStart + q * 4096 ↔ q' = q := fun q' => by omega
  rw [h.freePage_eq hlo hhi hset]
  refine ⟨h.start, h.fits, h.ends, h.word, h.size, h.reserved, fun q' h1 h2 => ?_, ?_, fun q' hq' => ?_,
    fun a ha => ?_⟩
  · show (w.words.clearBit q).test q' = true
    have hq' : q' ≠ q := by
      dsimp only at h1
      omega
    rw [BitWords.test_clearBit, h.tail q' h1 h2, decide_eq_false hq']
    rfl
  · show add64 w.usedPages (2 ^ 64 - 1) = (w.words.clearBit q).count w.totalPages
    rw [BitWords.count_clearBit w.words hhi hset, h.used_pred hhi hset, h.used]
  · show (w.words.clearBit q).test q' = true ↔ _
    rw [BitWords.test_clearBit, Bool.and_eq_true, Bool.not_eq_true', decide_eq_false_iff_not,
      h.bits q' hq', mem_filter, decide_eq_true_iff]
    dsimp only
    constructor
    · rintro ⟨hq, hres | hheld⟩
      · exact .inl hres
      · exact .inr ⟨hheld, fun heq => hq ((hne q').mp heq)⟩
    · rintro (hres | ⟨hheld, hq⟩)
      · exact ⟨by omega, .inl hres⟩
      · exact ⟨fun heq => hq ((hne q').mpr heq), .inr hheld⟩
  · exact h.owned a (mem_of_mem_filter ha)

/-- Freeing anything else changes nothing, unless it is the page that is cut off. -/
lemma Accounts.freePage_ignored (ha : a ∉ held) (hwhole : ¬ w.CutOff a) : w.freePage a = w := by
  rw [freePage]
  split
  · rfl
  rename_i hrange
  split
  · rfl
  rename_i halign
  dsimp only
  split
  · rfl
  rename_i hres
  split
  · rfl
  rename_i hbit
  exfalso
  have hstart := h.start
  have hends := h.ends
  obtain ⟨q, hq⟩ : ∃ q, a = memStart + q * 4096 := by
    refine ⟨(a - memStart) / 4096, ?_⟩
    simp only [memStart] at *
    omega
  have hpfn : (a - w.regionStart) / 4096 = q := by omega
  rw [hpfn] at hbit hres
  have hset : w.words.test q = true := by simpa using hbit
  by_cases hlt : q < w.totalPages
  · rcases (h.bits q hlt).mp hset with h1 | h1
    · omega
    · exact ha (hq ▸ h1)
  · refine hwhole ⟨?_, by omega⟩
    omega

end

lemma freePage_fields (w : PmmWords) (a : Nat) :
    (w.freePage a).regionStart = w.regionStart ∧ (w.freePage a).totalPages = w.totalPages ∧
      (w.freePage a).regionEnd = w.regionEnd := by
  rw [freePage]
  dsimp only
  repeat' split
  all_goals exact ⟨rfl, rfl, rfl⟩

lemma Accounts.freePage (h : w.Accounts held) (hwhole : ¬ w.CutOff a) :
    Accounts (w.freePage a) (held.filter fun x => x ≠ a) := by
  by_cases ha : a ∈ held
  · exact h.give ha
  · rw [h.freePage_ignored ha hwhole]
    refine h.congr fun x => ?_
    rw [mem_filter, decide_eq_true_iff]
    exact ⟨And.left, fun hx => ⟨hx, fun heq => ha (heq ▸ hx)⟩⟩

lemma mem_freed {n x : Nat} : x ∈ freed a n ↔ ∃ i, i < n ∧ x = add64 a (i * 4096) := by
  rw [freed, mem_map]
  constructor
  · rintro ⟨i, hi, rfl⟩
    exact ⟨i, mem_range.mp hi, rfl⟩
  · rintro ⟨i, hi, rfl⟩
    exact ⟨i, mem_range.mpr hi, rfl⟩

/-- A run of frees; the bounds of the region stay, so that the same page is cut off throughout. -/
lemma Accounts.freePages (h : w.Accounts held) (a n : Nat) (hwhole : ∀ x ∈ freed a n, ¬ w.CutOff x) :
    Accounts (w.freePages a n) (held.filter fun x => x ∉ freed a n) ∧
      ∀ x, (w.freePages a n).CutOff x ↔ w.CutOff x := by
  induction n with
  | zero =>
    refine ⟨h.congr fun x => ?_, fun x => Iff.rfl⟩
    simp [freed]
  | succ n ih =>
    obtain ⟨hn, hcut⟩ := ih fun x hx => by
      obtain ⟨i, hi, rfl⟩ := mem_freed.mp hx
      exact hwhole _ (mem_freed.mpr ⟨i, by omega, rfl⟩)
    have hlast := hwhole _ (mem_freed.mpr ⟨n, Nat.lt_succ_self n, rfl⟩)
    refine ⟨(hn.freePage fun hp => hlast ((hcut _).mp hp)).congr fun x => ?_, fun x => ?_⟩
    · simp only [mem_filter, decide_eq_true_iff, mem_freed, not_exists, not_and]
      constructor
      · rintro ⟨hx, hall⟩
        exact ⟨⟨hx, fun i hi => hall i (by omega)⟩, hall n (Nat.lt_succ_self n)⟩
      rintro ⟨⟨hx, hall⟩, hne⟩
      refine ⟨hx, fun i hi => ?_⟩
      by_cases hi' : i = n
      · rw [hi']
        exact hne
      · exact hall i (by omega)
    · obtain ⟨h1, h2, h3⟩ := freePage_fields (w.freePages a n) (add64 a (n * 4096))
      rw [← hcut x, PmmWords.freePages, CutOff, CutOff, h1, h2, h3]

lemma Accounts.step {s : PmmWords × List Nat} (h : s.1.Accounts s.2) {op : Op}
    (hwhole : WholePages s op) : (step s op).1.Accounts (step s op).2 := by
  cases op with
  | free a n => exact (h.freePages a n hwhole).1
  | alloc count =>
    rw [PmmWords.step]
    rcases h.allocatePages_cases count with heq | ⟨r, hlo, hrun, heq⟩
    · rw [heq]
      exact h
    · rw [heq]
      dsimp only
      rw [if_neg (by simp only [memStart]; omega)]
      exact h.take hlo hrun.high hrun.clear

end

/-! ## After boot -/

/-- The state after `pmm_init`. -/
lemma init_accounts {kernelEnd memSize : Nat} (behind : BitWords)
    (hend : memStart + memSize < 2 ^ 64)
    (hholds : (init kernelEnd memSize behind).reservedPages ≤ memSize / 4096) :
    (init kernelEnd memSize behind).Accounts [] := by
  have hregion : (init kernelEnd memSize behind).regionEnd = memStart + memSize := Nat.mod_eq_of_lt hend
  generalize hr : (init kernelEnd memSize behind).reservedPages = reserved at hholds
  have hwords : (init kernelEnd memSize behind).words =
      setRun (freshWords (memSize / 4096) behind) 0 reserved := by
    rw [← hr]
    rfl
  have hclear : ∀ q, 0 ≤ q → q < 0 + reserved →
      (freshWords (memSize / 4096) behind).test q = false := by
    intro q _ hq
    rw [test_freshWords behind (by omega)]
    exact decide_eq_false (by omega)
  refine ⟨rfl, ?_, ?_, ?_, rfl, by rw [hr]; exact hholds, fun q h1 h2 => ?_, ?_, fun q hq => ?_,
    forall_mem_nil _⟩
  · rw [hregion]
    show memStart + memSize / 4096 * 4096 ≤ memStart + memSize
    omega
  · rw [hregion]
    show memStart + memSize < memStart + memSize / 4096 * 4096 + 4096
    omega
  · rw [hregion]
    exact hend
  · rw [hwords, test_setRun, test_freshWords behind h2]
    exact .inr (decide_eq_true h1)
  · have hcount := count_setRun (freshWords (memSize / 4096) behind) reserved
      (show 0 + reserved ≤ memSize / 4096 by omega) hclear
    have hzero : (freshWords (memSize / 4096) behind).count (memSize / 4096) = 0 := by
      rw [BitWords.count, Finset.card_eq_zero, Finset.filter_eq_empty_iff]
      intro q hq
      have hlt := Finset.mem_range.mp hq
      rw [test_freshWords behind (by omega), decide_eq_false (by omega)]
      decide
    rw [hzero, zero_add] at hcount
    rw [hwords]
    exact hr.trans hcount.symm
  rw [hwords, hr, test_setRun]
  have hlt : q < memSize / 4096 := hq
  rw [test_freshWords behind (by omega), decide_eq_false (by omega)]
  constructor
  · rintro (h | h)
    · exact .inl (by omega)
    · cases h
  · rintro (h | h)
    · exact .inl (by omega)
    · cases h

/-- What is asked of the allocator in a state in which callers hold these pages. -/
structure Sane (w : PmmWords) (held : List Nat) : Prop where
  used : w.usedPages = w.words.count w.totalPages
  bits : ∀ q, q < w.totalPages →
    (w.words.test q = true ↔ q < w.reservedPages ∨ memStart + q * 4096 ∈ held)
  owned : ∀ a ∈ held, ∃ q, w.reservedPages ≤ q ∧ q < w.totalPages ∧ a = memStart + q * 4096
  fresh : ∀ count, (w.allocatePages count).1 = 0 ∨
    ∀ x ∈ pagesFrom (w.allocatePages count).1 count, x % 4096 = 0 ∧ memStart ≤ x ∧
      x + 4096 ≤ w.regionEnd ∧ w.words.test ((x - memStart) / 4096) = false ∧ x ∉ held
  ignored : ∀ a, ¬ w.CutOff a → (a < memStart ∨ memStart + w.totalPages * 4096 ≤ a ∨ a % 4096 ≠ 0 ∨
    (a - memStart) / 4096 < w.reservedPages ∨ w.words.test ((a - memStart) / 4096) = false) →
    w.freePage a = w

lemma Accounts.sane {w : PmmWords} {held : List Nat} (h : w.Accounts held) : w.Sane held where
  used := h.used
  bits := h.bits
  owned := h.owned
  fresh := by
    intro count
    rcases h.allocatePages_cases count with heq | ⟨r, hlo, ⟨-, hhi, hclear⟩, heq⟩
    · exact .inl (congrArg Prod.fst heq)
    right
    intro x hx
    rw [heq] at hx
    obtain ⟨i, hi, rfl⟩ := mem_pagesFrom.mp hx
    have hpage : memStart + r * 4096 + i * 4096 = memStart + (r + i) * 4096 := by omega
    have hpfn : (memStart + (r + i) * 4096 - memStart) / 4096 = r + i := by omega
    have hbit := hclear (r + i) (by omega) (by omega)
    have hfits := h.fits
    rw [hpage, hpfn]
    refine ⟨?_, by omega, by omega, hbit, fun hheld => ?_⟩
    · simp only [memStart]
      omega
    · rw [(h.bits (r + i) (by omega)).mpr (.inr hheld)] at hbit
      cases hbit
  ignored := by
    intro a hwhole hbad
    refine h.freePage_ignored (fun hheld => ?_) hwhole
    obtain ⟨q, hlo, hhi, rfl⟩ := h.owned a hheld
    have hset := (h.bits q hhi).mpr (.inr hheld)
    have hpfn : (memStart + q * 4096 - memStart) / 4096 = q := by omega
    rw [hpfn, hset] at hbad
    rcases hbad with h1 | h1 | h1 | h1 | h1
    · omega
    · omega
    · simp only [memStart] at h1
      omega
    · omega
    · cases h1

/-- **The page allocator.** After `pmm_init` on any memory that holds the reserved area, and over every
sequence of calls that frees no page the region cuts off, counter, bits and held pages agree. -/
theorem runs_sane {kernelEnd memSize : Nat} {behind : BitWords} (hend : memStart + memSize < 2 ^ 64)
    (hholds : (init kernelEnd memSize behind).reservedPages ≤ memSize / 4096)
    {s : PmmWords × List Nat}
    (h : Reach (· = (init kernelEnd memSize behind, [])) WholePages step s) : s.1.Sane s.2 := by
  have hacc : s.1.Accounts s.2 := by
    refine h.invariant (fun s => s.1.Accounts s.2) ?_ fun s op hs hg => hs.step hg
    rintro s rfl
    exact init_accounts behind hend hholds
  exact hacc.sane

/-! ## The bits as a function

The allocator that the rest of the kernel is modelled on has a bit for each page and no words. The words
behave like it, call for call. -/

/-- The words hold the bits of `p`. -/
structure Refines (w : PmmWords) (p : Pmm) : Prop where
  total : w.totalPages = p.cfg.totalPages
  reserved : w.reservedPages = p.cfg.reservedPages
  used : w.usedPages = p.usedPages
  bits : ∀ q, q < w.totalPages → w.words.test q = p.bitmap q

lemma scanRun_congr {f g : Nat → Bool} (left : Nat) : ∀ {pfn runStart runLength : Nat},
    (∀ q, pfn ≤ q → q < pfn + left → f q = g q) →
    Pmm.scanRun f count left pfn runStart runLength = Pmm.scanRun g count left pfn runStart runLength := by
  induction left with
  | zero => exact fun _ => rfl
  | succ left ih =>
    intro pfn runStart runLength h
    have hrest : ∀ q, pfn + 1 ≤ q → q < pfn + 1 + left → f q = g q := fun q h1 h2 =>
      h q (by omega) (by omega)
    rw [Pmm.scanRun, Pmm.scanRun, h pfn le_rfl (by omega)]
    split
    · exact ih hrest
    · dsimp only
      split
      · rfl
      · exact ih hrest

section
variable {w : PmmWords} {p : Pmm} {held : List Nat}

/-- **Allocation** returns the same address and leaves the same bits. -/
lemma Refines.allocatePages (hr : w.Refines p) (h : w.Accounts held) (count : Nat) :
    (w.allocatePages count).1 = (p.allocatePages count).1 ∧
      (w.allocatePages count).2.Refines (p.allocatePages count).2 := by
  by_cases hc : count = 0
  · rw [PmmWords.allocatePages, Pmm.allocatePages, if_pos hc, if_pos hc]
    exact ⟨rfl, hr⟩
  have hword := h.placed.fits
  have hused := h.used_le
  have hfirst := (Pmm.firstFrame_le w.reservedPages count).trans h.reserved
  rw [allocatePages_eq h.size hc, Pmm.allocatePages_eq p hc, ← hr.total, ← hr.reserved,
    scanRun_congr _ fun q _ hq => hr.bits q (by omega)]
  rcases Pmm.search_lowest h.reserved (fun q hq => p.reserved_set q (hr.reserved ▸ hq)) hc with
    ⟨hscan, -⟩ | ⟨r, hscan, -, ⟨-, hhi, -⟩, -⟩
  · rw [hscan]
    exact ⟨rfl, hr⟩
  rw [hscan]
  refine ⟨h.placed.address_eq (by omega), ?_, ?_, ?_, fun q hq => ?_⟩
  · exact hr.total.trans (congrArg MemCfg.totalPages (Pmm.bitmapSetRun_cfg p r count).symm)
  · exact hr.reserved.trans (congrArg MemCfg.reservedPages (Pmm.bitmapSetRun_cfg p r count).symm)
  · show add64 w.usedPages count = p.usedPages + count
    rw [← hr.used, add64, Nat.mod_eq_of_lt (by omega)]
  · show (setRun w.words r count).test q = (p.bitmapSetRun r count).bitmap q
    rw [Bool.eq_iff_iff, test_setRun, Pmm.bitmapSetRun_bitmap, hr.bits q hq]

/-- **Freeing** clears the same bit, unless the page is cut off. -/
lemma Refines.freePage (hr : w.Refines p) (h : w.Accounts held) (hwhole : ¬ w.CutOff a) :
    (w.freePage a).Refines (p.freePage a) := by
  by_cases hal : p.Allocated a
  · obtain ⟨pfn, hlo, hhi, hset, rfl⟩ := hal
    rw [← hr.total] at hhi
    rw [← hr.reserved] at hlo
    have hbit := hr.bits pfn hhi
    have hphys : pfnToPhys pfn = memStart + pfn * 4096 := rfl
    rw [Pmm.freePage_eq (hr.reserved ▸ hlo) (hr.total ▸ hhi) hset, hphys,
      h.freePage_eq hlo hhi (hbit.trans hset)]
    refine ⟨hr.total, hr.reserved, ?_, fun q hq => ?_⟩
    · show add64 w.usedPages (2 ^ 64 - 1) = p.usedPages - 1
      rw [h.used_pred hhi (hbit.trans hset), hr.used]
    show (w.words.clearBit pfn).test q = if q = pfn then false else p.bitmap q
    rw [BitWords.test_clearBit, hr.bits q hq]
    split_ifs with hqp
    · rw [decide_eq_true hqp, Bool.not_true, Bool.false_and]
    · rw [decide_eq_false hqp, Bool.not_false, Bool.true_and]
  rw [Pmm.freePage_of_not_allocated hal, h.freePage_ignored (fun hheld => hal ?_) hwhole]
  · exact hr
  · obtain ⟨q, hlo, hhi, rfl⟩ := h.owned a hheld
    refine ⟨q, hr.reserved ▸ hlo, hr.total ▸ hhi, ?_, rfl⟩
    rw [← hr.bits q hhi]
    exact (h.bits q hhi).mpr (.inr hheld)

/-- A call on the bits. -/
def bitsStep (p : Pmm) : Op → Pmm
  | .alloc count => (p.allocatePages count).2
  | .free physAddr count => p.freeList (freed physAddr count)

lemma Refines.freePages (hr : w.Refines p) (h : w.Accounts held) (n : Nat)
    (hwhole : ∀ x ∈ freed a n, ¬ w.CutOff x) : (w.freePages a n).Refines (p.freeList (freed a n)) := by
  induction n with
  | zero => exact hr
  | succ n ih =>
    have hlast : freed a (n + 1) = freed a n ++ [add64 a (n * 4096)] := by
      rw [freed, range_succ, map_append]
      rfl
    rw [hlast, forall_mem_append, forall_mem_singleton] at hwhole
    obtain ⟨hn, hcut⟩ := h.freePages a n hwhole.1
    rw [hlast, Pmm.freeList_append]
    exact (ih hwhole.1).freePage hn fun hc => hwhole.2 ((hcut _).mp hc)

/-- **Refinement**: in every run that frees no page that is cut off, the words hold the bits and answer
as the bits do. -/
theorem words_refine_bits {s : PmmWords × List Nat} {ops : List Op} (hr : s.1.Refines p)
    (h : s.1.Accounts s.2) (hops : Obeys WholePages step s ops) :
    (ops.foldl step s).1.Refines (ops.foldl bitsStep p) ∧ ∀ count,
      ((ops.foldl step s).1.allocatePages count).1 = ((ops.foldl bitsStep p).allocatePages count).1 := by
  induction ops generalizing s p with
  | nil => exact ⟨hr, fun count => (hr.allocatePages h count).1⟩
  | cons op ops ih =>
    refine ih ?_ (h.step hops.1) hops.2
    cases op with
    | alloc n => exact (hr.allocatePages h n).2
    | free a n => exact hr.freePages h n hops.1

end

/-! ## A region that ends inside a page -/

/-- Nineteen pages and one byte; the kernel takes one page, the bitmap the next. -/
def oddRegion : PmmWords := init (memStart + 4096) (19 * 4096 + 1) fun _ => 0#64

/-- The second page is the bitmap's, so that no eighteen pages in a row are free. -/
theorem allocatePages_lowest_none :
    (oddRegion.allocatePages 18).1 = 0 ∧ (oddRegion.allocatePages 18).2 = oddRegion := by
  have hplaced : oddRegion.Placed := ⟨rfl, by decide, by decide, by decide, by decide +kernel⟩
  obtain ⟨-, hnone, hkeep⟩ := allocatePages_lowest hplaced (show 1 ≤ 18 by decide)
  have h0 : (oddRegion.allocatePages 18).1 = 0 := by
    refine hnone.mpr fun r hrun => ?_
    have hhigh : r + 18 ≤ 19 := hrun.high
    exact absurd (hrun.clear 1 (by omega) (by omega)) (by decide +kernel)
  exact ⟨h0, hkeep h0⟩

/-- Two pages, three pages, frees of some of them, of one twice, and of addresses that are no pages. -/
def wholeRun : List Op :=
  [.alloc 1, .alloc 3, .free (memStart + 2 * 4096) 2, .free (memStart + 3 * 4096) 1, .free 0 5,
    .free (memStart + 4 * 4096 + 8) 1, .alloc 1]

theorem runs_sane_wholeRun : (wholeRun.foldl step (oddRegion, [])).1.Sane
    (wholeRun.foldl step (oddRegion, [])).2 :=
  runs_sane (by decide) (show oddRegion.reservedPages ≤ _ by decide)
    (have h₀ : Reach (· = (oddRegion, ([] : List Nat))) WholePages step (oddRegion, []) := .start rfl
     h₀.obeys (show Obeys WholePages step (oddRegion, []) wholeRun by decide +kernel))

theorem words_refine_bits_wholeRun : ((wholeRun.foldl step (oddRegion, [])).1.allocatePages 2).1 =
    ((wholeRun.foldl bitsStep (.init ⟨19, 2, 0, by decide, by decide, by decide,
      by decide⟩)).allocatePages 2).1 :=
  (words_refine_bits (s := (_, [])) ⟨rfl, rfl, rfl, show ∀ q < 19, _ by decide +kernel⟩
    (init_accounts _ (by decide) (show oddRegion.reservedPages ≤ _ by decide))
    (show Obeys WholePages step (oddRegion, []) wholeRun by decide +kernel)).2 2

/-- Freeing the page that is cut off, which nobody holds, lowers the counter. -/
theorem free_cutOff_miscounts : oddRegion.reservedPages = 2 ∧ oddRegion.totalPages = 19 ∧
      ∀ w, w = oddRegion.freePage (memStart + 19 * 4096) →
        w ≠ oddRegion ∧ w.usedPages = 1 ∧ w.words.count w.totalPages = 2 := by
  refine ⟨by decide, by decide, ?_⟩
  rintro w rfl
  have hused : (oddRegion.freePage (memStart + 19 * 4096)).usedPages = 1 := by decide +kernel
  refine ⟨fun heq => ?_, hused, by decide +kernel⟩
  rw [heq] at hused
  revert hused
  decide

end PmmWords
end FermiOs
