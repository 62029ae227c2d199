import FermiOs.Mm.Vma

/-!
# Tasks

The part of `task_t` the memory-management, fork, exec and scheduling code reads and writes, and the
packing of the table base and the ASID into `ttbr0`. A task records every page it owns besides the
pages of its page table; `Task.userPages` lists the records that back user mappings.
-/

namespace FermiOs
open Library

/-- `task_state_t`. -/
inductive TaskState
  | ready
  | running
  | sleeping
  | dead
  | zombie
  deriving DecidableEq

/-- `elf_region_t`: one loaded segment, backed by one contiguous allocation. -/
structure ElfRegion where
  phys : Nat
  pages : Nat
  va : Nat
  flags : Nat
  deriving DecidableEq

/-- `task_t`. `regions` and `entry` are `exec_image`; `grown` pairs `stack_grown_va` with
`stack_grown_phys`, in the order of the arrays; `fds` tells whether the task has a descriptor
table. -/
structure Task where
  pid : Nat
  ppid : Nat
  state : TaskState
  exitCode : Int
  sleepUntil : Nat
  stackPhys : Nat
  ttbr0 : Nat
  ustackPhys : Nat
  tlsPhys : Nat
  regions : List ElfRegion
  entry : Nat
  grown : List (Nat × Nat)
  vmas : VmaSet
  brkBase : Nat
  brkCur : Nat
  fds : Bool

/-- The record `sched_create_task` fills in: zeroed, then the pages of the task, its table and the
arena of the break. -/
def newTask (pid stackPhys ttbr0 ustackPhys tlsPhys : Nat) (fds : Bool) : Task where
  pid := pid
  ppid := 0
  state := .ready
  exitCode := 0
  sleepUntil := 0
  stackPhys := stackPhys
  ttbr0 := ttbr0
  ustackPhys := ustackPhys
  tlsPhys := tlsPhys
  regions := []
  entry := 0
  grown := []
  vmas := []
  brkBase := userBrkBase
  brkCur := userBrkBase
  fds := fds

/-- `ttbr_pack`: the two fields do not overlap, so the bitwise or is a sum. -/
def ttbrPack (baddr asid : Nat) : Nat := baddr % 2 ^ 48 + asid % 2 ^ 16 * 2 ^ 48

/-- `ttbr_baddr`. -/
def ttbrBaddr (ttbr : Nat) : Nat := ttbr % 2 ^ 48

/-- `ttbr_asid`. -/
def ttbrAsid (ttbr : Nat) : Nat := ttbr / 2 ^ 48 % 2 ^ 16

lemma ttbrBaddr_pack {baddr asid : Nat} (h : baddr < 2 ^ 48) :
    ttbrBaddr (ttbrPack baddr asid) = baddr := by
  simp only [ttbrBaddr, ttbrPack]
  omega

lemma ttbrAsid_pack {baddr asid : Nat} (h : asid < 2 ^ 16) : ttbrAsid (ttbrPack baddr asid) = asid := by
  simp only [ttbrAsid, ttbrPack]
  omega

lemma ttbrPack_ne_zero {baddr asid : Nat} (h : baddr < 2 ^ 48) (h0 : baddr ≠ 0) :
    ttbrPack baddr asid ≠ 0 := by
  simp only [ttbrPack]
  omega

namespace Task

/-- Physical address of the task's L0 table. -/
def l0 (t : Task) : Nat := ttbrBaddr t.ttbr0

/-- The ASID the task's translations are tagged with. -/
def asid (t : Task) : Nat := ttbrAsid t.ttbr0

/-- Pages of a run recorded by its first page; a null record holds none. -/
def runPages (phys n : Nat) : List Nat := if phys = 0 then [] else pagesFrom phys n

/-- The pages of the loaded image. -/
def imagePages (t : Task) : List Nat := t.regions.flatMap fun r => runPages r.phys r.pages

/-- The pages of demand-grown stack. -/
def grownPages (t : Task) : List Nat := (t.grown.map Prod.snd).filter (· ≠ 0)

/-- Every page recorded for a user mapping. -/
def userPages (t : Task) : List Nat :=
  runPages t.ustackPhys userStackPages ++ (t.imagePages ++ (t.grownPages ++
    (vmaSlots t.vmas ++ runPages t.tlsPhys 1)))

end Task
end FermiOs
