import FermiOs.Sched.Fork

/-!
# The ELF loader

`elf_load` of `syscall/elf.c` on a buffer of bytes: the header checks, the loop over the program
headers, and the location of the header table. Every segment gets a run of cleared pages, the bytes of
the file are copied into it, and it is mapped with the permissions of its flags. When the loader
refuses a file it frees the runs of the segments it had loaded. Diagnostics printed to the UART are
left out.
-/

namespace FermiOs
open Library List

/-! ## Headers -/

/-- Little-endian field of `n` bytes at `off`. -/
def leField (kbuf : List UInt8) (off n : Nat) : Nat :=
  (range n).foldr (fun i acc => (kbuf.getD (off + i) 0).toNat + 256 * acc) 0

lemma leField_lt (kbuf : List UInt8) (off n : Nat) : leField kbuf off n < 256 ^ n := by
  have hfold : ∀ xs : List Nat, xs.foldr (fun i acc => (kbuf.getD (off + i) 0).toNat + 256 * acc) 0 <
      256 ^ xs.length := by
    intro xs
    induction xs with
    | nil => exact Nat.one_pos
    | cons i xs ih =>
      have hb : (kbuf.getD (off + i) 0).toNat < 256 := UInt8.toNat_lt _
      rw [foldr_cons, length_cons, Nat.pow_succ]
      omega
  have h := hfold (range n)
  rw [length_range] at h
  exact h

/-- `Elf64_Phdr`, the fields the loader reads; sizes are 64-bit words. -/
structure Phdr where
  type : Nat
  flags : Nat
  offset : Nat
  vaddr : Nat
  filesz : Nat
  memsz : Nat
  memsz_lt : memsz < 2 ^ 64
  deriving DecidableEq

/-- `sizeof(Elf64_Phdr)`. -/
def phdrSize : Nat := 56

section
variable (kbuf : List UInt8)

/-- The program header at a file offset. -/
def phdrAt (off : Nat) : Phdr where
  type := leField kbuf off 4
  flags := leField kbuf (off + 4) 4
  offset := leField kbuf (off + 8) 8
  vaddr := leField kbuf (off + 16) 8
  filesz := leField kbuf (off + 32) 8
  memsz := leField kbuf (off + 40) 8
  memsz_lt := leField_lt kbuf (off + 40) 8

/-- `e_phoff`, `e_phnum` and `e_entry`. -/
def ePhoff : Nat := leField kbuf 32 8

@[inherit_doc ePhoff]
def ePhnum : Nat := leField kbuf 56 2

@[inherit_doc ePhoff]
def eEntry : Nat := leField kbuf 24 8

/-- The checks before the segment loop: size, magic, class, byte order, version, type, machine, and
the header table inside the file. -/
def elfHeaderOk : Bool :=
  decide (64 ≤ kbuf.length) &&
  (kbuf.take 4 == [0x7F, 0x45, 0x4C, 0x46]) &&
  (leField kbuf 4 1 == 2) && (leField kbuf 5 1 == 1) && (leField kbuf 6 1 == 1) &&
  (leField kbuf 16 2 == 2) && (leField kbuf 18 2 == 0xB7) &&
  (leField kbuf 54 2 == phdrSize) &&
  (ePhnum kbuf != 0) && decide (ePhnum kbuf ≤ 32) &&
  decide (ePhoff kbuf ≤ kbuf.length) &&
  decide (add64 (ePhoff kbuf) (ePhnum kbuf * phdrSize) ≤ kbuf.length)

/-- The header table. -/
def phdrs : List Phdr :=
  (range (ePhnum kbuf)).map fun i => phdrAt kbuf (ePhoff kbuf + i * phdrSize)

end

namespace Phdr

/-- `PT_LOAD`. -/
def isLoad (ph : Phdr) : Bool := ph.type == 1

/-- `PF_X`, `PF_W` and `PF_R`. -/
def x (ph : Phdr) : Bool := ph.flags.testBit 0

@[inherit_doc x]
def w (ph : Phdr) : Bool := ph.flags.testBit 1

@[inherit_doc x]
def r (ph : Phdr) : Bool := ph.flags.testBit 2

/-- The file slice and the address range of a segment are sane, and so are its flags. -/
def ok (size : Nat) (ph : Phdr) : Bool :=
  decide (ph.filesz ≤ ph.memsz) &&
  decide (add64 ph.offset ph.filesz ≤ size) && decide (ph.offset ≤ add64 ph.offset ph.filesz) &&
  decide (ph.vaddr < userStackTop) && decide (add64 ph.vaddr ph.memsz ≤ userStackTop) &&
  decide (ph.vaddr ≤ add64 ph.vaddr ph.memsz) &&
  !(ph.w && ph.x) && ph.r

/-- First page and number of pages of the span that covers the segment. -/
def vaLo (ph : Phdr) : Nat := pageAlignDown ph.vaddr

@[inherit_doc vaLo]
def pages (ph : Phdr) : Nat := (pageAlignUp (add64 ph.vaddr ph.memsz) - ph.vaLo) / 4096

end Phdr

/-! ## Loading -/

/-- `memcpy` of bytes to a physical address. -/
def Kernel.writeBytes (k : Kernel) (pa : Nat) (bytes : List UInt8) : Kernel :=
  { k with frame := fun p off =>
      if off < 4096 ∧ pa ≤ p + off ∧ p + off < pa + bytes.length then bytes.getD (p + off - pa) 0
      else k.frame p off }

/-- `ELF_MAX_REGIONS`. -/
def elfMaxRegions : Nat := 4

/-- The loop over the program headers, with `count` segments loaded so far. The result lists the
segments loaded from here on. -/
def loadSegments (kbuf : List UInt8) (l0 : Nat) (k : Kernel) (count : Nat) :
    List Phdr → Copy (List ElfRegion)
  | [] => ⟨[], true, true, k⟩
  | ph :: rest =>
    if ph.isLoad = false then loadSegments kbuf l0 k count rest
    else if ph.ok kbuf.length = false ∨ elfMaxRegions ≤ count then ⟨[], false, true, k⟩
    else
      match k.pmmAllocatePages ph.pages with
      | (0, k) => ⟨[], false, true, k⟩
      | (phys, k) =>
        match ((k.memsetPages phys ph.pages).writeBytes (phys + (ph.vaddr - ph.vaLo))
            ((kbuf.drop ph.offset).take ph.filesz)).mmuMapUserRange l0 ph.vaLo phys ph.pages
            (elfPflagsToPte ph.flags) with
        | (m, k) =>
          let r := loadSegments kbuf l0 k (count + 1) rest
          ⟨⟨phys, ph.pages, ph.vaLo, ph.flags⟩ :: r.out, r.ok, m && r.mapped, r.k⟩

/-- `free_regions`. -/
def freeRegions (k : Kernel) (regions : List ElfRegion) : Kernel :=
  k.pmmFreeList (regions.flatMap fun r => Task.runPages r.phys r.pages)

/-- `elf_image_t`. -/
structure ElfImage where
  entry : Nat
  regions : List ElfRegion
  phdrVa : Nat
  phentsize : Nat
  phnum : Nat

section
variable (kbuf : List UInt8)

/-- Address of the header table, when a segment covers all of it. -/
def elfPhdrVa : Nat :=
  let tblEnd := add64 (ePhoff kbuf) (ePhnum kbuf * phdrSize)
  match (phdrs kbuf).find? fun ph => ph.isLoad && decide (ph.offset ≤ ePhoff kbuf) &&
      decide (tblEnd ≤ add64 ph.offset ph.filesz) with
  | some ph => add64 ph.vaddr (ePhoff kbuf - ph.offset)
  | none => 0

/-- The entry point lies in an executable segment. -/
def elfEntryOk : Bool :=
  (phdrs kbuf).any fun ph => ph.isLoad && decide (ph.vaddr ≤ eEntry kbuf) &&
    decide (eEntry kbuf < add64 ph.vaddr ph.memsz) && ph.x

/-- `elf_load`; the flag tells whether every walk found its table pages. -/
def elfLoad (l0 : Nat) (k : Kernel) : Copy (Option ElfImage) :=
  if elfHeaderOk kbuf = false then ⟨none, false, true, k⟩
  else
    let r := loadSegments kbuf l0 k 0 (phdrs kbuf)
    if r.ok = false then ⟨none, false, r.mapped, freeRegions r.k r.out⟩
    else if r.out = [] then ⟨none, false, r.mapped, r.k⟩
    else if elfEntryOk kbuf = false then ⟨none, false, r.mapped, freeRegions r.k r.out⟩
    else
      ⟨some ⟨eEntry kbuf, r.out, elfPhdrVa kbuf, leField kbuf 54 2, ePhnum kbuf⟩, true, r.mapped, r.k⟩

end

/-! ## What the loader does -/

lemma writeBytes_frame (k : Kernel) {pa lo n : Nat} {bytes : List UInt8} (hlo : lo ≤ pa)
    (hhi : pa + bytes.length ≤ lo + n * 4096) (hal : n = 0 ∨ lo % 4096 = 0) :
    ∀ p, p % 4096 = 0 → p ∉ pagesFrom lo n → (k.writeBytes pa bytes).frame p = k.frame p := by
  intro p hp hx
  funext off
  have hout : ¬ (off < 4096 ∧ pa ≤ p + off ∧ p + off < pa + bytes.length) := by
    intro hin
    exact hx (mem_pagesFrom.mpr ⟨(p - lo) / 4096, by omega, by omega⟩)
  exact if_neg hout

/-- A segment that passed its checks fits the span allocated for it. -/
lemma Phdr.fits {ph : Phdr} {size : Nat} (h : ph.ok size = true) :
    ph.vaddr - ph.vaLo + ph.filesz ≤ ph.pages * 4096 ∧ ph.vaLo ≤ ph.vaddr ∧
      ph.vaLo % 4096 = 0 ∧ ph.vaLo + ph.pages * 4096 ≤ userStackTop := by
  simp only [Phdr.ok, Bool.and_eq_true, decide_eq_true_eq] at h
  have hlt := ph.memsz_lt
  simp only [Phdr.pages, Phdr.vaLo, pageAlignDown, pageAlignUp, add64, userStackTop] at *
  omega

lemma freeRegions_eq {k : Kernel} {regions : List ElfRegion} (h : ∀ r ∈ regions, r.phys ≠ 0) :
    freeRegions k regions = k.pmmFreeList (regionPages regions) := by
  rw [freeRegions, regionPages]
  congr 1
  exact flatMap_congr fun r hr => runPages_of_ne _ (h r hr)

end FermiOs
