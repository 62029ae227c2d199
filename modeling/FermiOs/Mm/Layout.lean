import Mathlib.Tactic

/-!
# Address-space layout and machine words

Constants of `mm/mmu/mmu.h`, `mm/pmm/pmm.h` and `sched/sched.h`, and the 64-bit arithmetic the
kernel does on addresses. Addresses and sizes are natural numbers; where the source relies on
unsigned wrap-around the sum is taken modulo `2 ^ 64`. `PAGE_SIZE` is written out as `4096`.
-/

namespace FermiOs

/-- `MEM_START`: physical base of RAM, also the physical address of `__text_start`. -/
def memStart : Nat := 0x40000000

/-- `USER_TEXT_BASE`. -/
def userTextBase : Nat := 0x00400000

/-- `USER_STACK_TOP`. -/
def userStackTop : Nat := 0x00800000

/-- `USER_STACK_PAGES`, the eagerly mapped part of the user stack. -/
def userStackPages : Nat := 4

/-- `USER_STACK_PAGES_MAX`. -/
def userStackPagesMax : Nat := 64

/-- `USER_STACK_GROWN_MAX`. -/
def userStackGrownMax : Nat := userStackPagesMax - userStackPages

/-- `TASK_STACK_PAGES`, the kernel stack of a task. -/
def taskStackPages : Nat := 4

/-- Lowest address demand growth of the stack may reach. -/
def stackMaxLo : Nat := userStackTop - userStackPagesMax * 4096

/-- Lowest address of the eagerly mapped stack. -/
def stackInitialLo : Nat := userStackTop - userStackPages * 4096

/-- `USER_VA_TOP`. -/
def userVaTop : Nat := 0x40000000

/-- `USER_MMAP_BASE`. -/
def userMmapBase : Nat := 0x01000000

/-- `USER_BRK_BASE`. -/
def userBrkBase : Nat := 0x20000000

/-- `USER_BRK_RESERVE_PAGES`. -/
def userBrkReservePages : Nat := 4096

/-- `USER_TLS_BASE`. -/
def userTlsBase : Nat := 0x00B00000

/-- Unsigned 64-bit addition. -/
def add64 (a b : Nat) : Nat := (a + b) % 2 ^ 64

/-- `PAGE_ALIGN_DOWN`. -/
def pageAlignDown (a : Nat) : Nat := a / 4096 * 4096

/-- `PAGE_ALIGN_UP`, with the wrap-around of the unsigned addition. -/
def pageAlignUp (a : Nat) : Nat := add64 a 4095 / 4096 * 4096

/-- Addresses of `n` consecutive pages from `a`. -/
def pagesFrom (a n : Nat) : List Nat := (List.range n).map fun i => a + i * 4096

lemma mem_pagesFrom {a n x : Nat} : x ∈ pagesFrom a n ↔ ∃ i, i < n ∧ x = a + i * 4096 := by
  simp only [pagesFrom, List.mem_map, List.mem_range]
  constructor
  · rintro ⟨i, hi, rfl⟩
    exact ⟨i, hi, rfl⟩
  · rintro ⟨i, hi, rfl⟩
    exact ⟨i, hi, rfl⟩

lemma pagesFrom_nodup (a n : Nat) : (pagesFrom a n).Nodup := by
  refine List.Nodup.map ?_ List.nodup_range
  intro i j hij
  simp only at hij
  omega

lemma pagesFrom_one (a : Nat) : pagesFrom a 1 = [a] := by
  simp [pagesFrom]

lemma pageAlignUp_of_lt {a : Nat} (h : a < 2 ^ 64 - 4096) :
    pageAlignUp a = (a + 4095) / 4096 * 4096 := by
  rw [pageAlignUp, add64, Nat.mod_eq_of_lt (by omega)]

end FermiOs
