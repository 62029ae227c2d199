import FermiOs.Syscall.Image
import FermiOs.Syscall.Mem

/-!
# What the ELF loader may touch

Every field of an ELF file is chosen by whoever wrote it, so each offset, size and address the loader
computes from them has to be inside the buffer, the new pages or the user half before it is used.

Reads are followed by running the loader a second time with a list of the spans it looked at: a header
counts as read as soon as one of its fields is. The two runs give the same result. Writes, mappings and
the pages that are taken or given back are read off the state.
-/

namespace FermiOs
open Library List

/-! ## The spans that are read -/

/-- A stretch of the buffer: its first byte and its length. -/
abbrev ReadSpan := Nat × Nat

/-- `sizeof(Elf64_Ehdr)`. -/
def ehdrSize : Nat := 64

/-- File offsets of the program headers. -/
def phdrOffsets (kbuf : List UInt8) : List Nat :=
  (range (ePhnum kbuf)).map fun i => ePhoff kbuf + i * phdrSize

/-- `loadSegments` with the spans it reads: each header it comes to, and the slice of the file it
copies. -/
def loadSegmentsTraced (kbuf : List UInt8) (l0 : Nat) (k : Kernel) (count : Nat) :
    List Nat → Copy (List ElfRegion) × List ReadSpan
  | [] => (⟨[], true, true, k⟩, [])
  | off :: rest =>
    let ph := phdrAt kbuf off
    if ph.isLoad = false then
      let r := loadSegmentsTraced kbuf l0 k count rest
      (r.1, (off, phdrSize) :: r.2)
    else if ph.ok kbuf.length = false ∨ elfMaxRegions ≤ count then
      (⟨[], false, true, k⟩, [(off, phdrSize)])
    else
      match k.pmmAllocatePages ph.pages with
      | (0, k) => (⟨[], false, true, k⟩, [(off, phdrSize)])
      | (phys, k) =>
        match ((k.memsetPages phys ph.pages).writeBytes (phys + (ph.vaddr - ph.vaLo))
            ((kbuf.drop ph.offset).take ph.filesz)).mmuMapUserRange l0 ph.vaLo phys ph.pages
            (elfPflagsToPte ph.flags) with
        | (m, k) =>
          let r := loadSegmentsTraced kbuf l0 k (count + 1) rest
          (⟨⟨phys, ph.pages, ph.vaLo, ph.flags⟩ :: r.1.out, r.1.ok, m && r.1.mapped, r.1.k⟩,
            (off, phdrSize) :: (ph.offset, ph.filesz) :: r.2)

/-- `elf_load` with the spans it reads. The searches for the header table and for the entry point go
over the headers once more. -/
def elfLoadTraced (kbuf : List UInt8) (l0 : Nat) (k : Kernel) :
    Copy (Option ElfImage) × List ReadSpan :=
  if kbuf.length < ehdrSize then (⟨none, false, true, k⟩, [])
  else if elfHeaderOk kbuf = false then (⟨none, false, true, k⟩, [(0, ehdrSize)])
  else
    let r := loadSegmentsTraced kbuf l0 k 0 (phdrOffsets kbuf)
    let once := (0, ehdrSize) :: r.2
    let twice := once ++ (phdrOffsets kbuf).map fun off => (off, phdrSize)
    if r.1.ok = false then (⟨none, false, r.1.mapped, freeRegions r.1.k r.1.out⟩, once)
    else if r.1.out = [] then (⟨none, false, r.1.mapped, r.1.k⟩, once)
    else if elfEntryOk kbuf = false then
      (⟨none, false, r.1.mapped, freeRegions r.1.k r.1.out⟩, twice)
    else
      (⟨some ⟨eEntry kbuf, r.1.out, elfPhdrVa kbuf, leField kbuf 54 2, ePhnum kbuf⟩, true,
        r.1.mapped, r.1.k⟩, twice)

section
variable (kbuf : List UInt8)
include kbuf

lemma phdrs_eq : phdrs kbuf = (phdrOffsets kbuf).map (phdrAt kbuf) := by
  rw [phdrs, phdrOffsets, map_map]
  rfl

lemma loadSegmentsTraced_fst (l0 : Nat) (k : Kernel) (count : Nat)
    (offs : List Nat) : (loadSegmentsTraced kbuf l0 k count offs).1 =
      loadSegments kbuf l0 k count (offs.map (phdrAt kbuf)) := by
  induction offs generalizing k count with
  | nil => rfl
  | cons off rest ih =>
    rw [map_cons, loadSegmentsTraced, loadSegments]
    split
    · exact ih k count
    split
    · rfl
    · rcases k.pmmAllocatePages (phdrAt kbuf off).pages with ⟨phys, k1⟩
      cases phys with
      | zero => rfl
      | succ n => simp only [ih]

/-- The spans of the loop lie in the buffer when the headers it goes over do. -/
lemma loadSegmentsTraced_reads (l0 : Nat) (k : Kernel) (count : Nat)
    {offs : List Nat} (hin : ∀ off ∈ offs, off + phdrSize ≤ kbuf.length) :
    ∀ s ∈ (loadSegmentsTraced kbuf l0 k count offs).2, s.1 + s.2 ≤ kbuf.length := by
  induction offs generalizing k count with
  | nil => exact forall_mem_nil _
  | cons off rest ih =>
    have hoff := hin off mem_cons_self
    have hrest : ∀ o ∈ rest, o + phdrSize ≤ kbuf.length := fun o ho =>
      hin o (mem_cons_of_mem _ ho)
    intro s hs
    rw [loadSegmentsTraced] at hs
    split at hs
    · rcases mem_cons.mp hs with rfl | hs
      · exact hoff
      · exact ih k count hrest s hs
    split_ifs at hs with hgood
    · obtain rfl := mem_singleton.mp hs
      exact hoff
    have hok : (phdrAt kbuf off).ok kbuf.length = true :=
      Bool.eq_true_of_not_eq_false (not_or.mp hgood).1
    split at hs
    · obtain rfl := mem_singleton.mp hs
      exact hoff
    rcases mem_cons.mp hs with rfl | hs
    · exact hoff
    · rcases mem_cons.mp hs with rfl | hs
      · -- the slice that is copied
        exact (Phdr.ok_bounds hok).2.1
      · exact ih _ _ hrest s hs

lemma elfLoadTraced_fst (l0 : Nat) (k : Kernel) : (elfLoadTraced kbuf l0 k).1 = elfLoad kbuf l0 k := by
  have hloop := loadSegmentsTraced_fst kbuf l0 k 0 (phdrOffsets kbuf)
  rw [← phdrs_eq] at hloop
  unfold elfLoadTraced elfLoad
  by_cases hshort : kbuf.length < ehdrSize
  · have hbad : elfHeaderOk kbuf = false := by
      have h64 : decide (64 ≤ kbuf.length) = false := decide_eq_false (Nat.not_le.mpr hshort)
      simp only [elfHeaderOk, h64, Bool.false_and]
    rw [if_pos hshort, if_pos hbad]
  rw [if_neg hshort]
  dsimp only
  rw [← hloop]
  split
  · rfl
  split
  · rfl
  split
  · rfl
  · split
    · rfl
    · rfl

end

/-- With an accepted header the table lies in the buffer: a buffer of a megabyte is too short for the
sum to wrap. -/
lemma elfHeaderOk_table {kbuf : List UInt8} (hsize : kbuf.length ≤ 2 ^ 20)
    (h : elfHeaderOk kbuf = true) : ePhoff kbuf + ePhnum kbuf * phdrSize ≤ kbuf.length := by
  simp only [elfHeaderOk, Bool.and_eq_true, decide_eq_true_eq] at h
  simp only [add64, phdrSize] at *
  omega

/-- **Reads**: every span the loader looks at lies in the buffer. -/
lemma elfLoadTraced_reads {kbuf : List UInt8} (hsize : kbuf.length ≤ 2 ^ 20) (l0 : Nat)
    (k : Kernel) : ∀ s ∈ (elfLoadTraced kbuf l0 k).2, s.1 + s.2 ≤ kbuf.length := by
  intro s hs
  unfold elfLoadTraced at hs
  split at hs
  · cases hs
  have hehdr : 0 + ehdrSize ≤ kbuf.length := by omega
  split at hs
  · obtain rfl := mem_singleton.mp hs
    exact hehdr
  rename_i hgood
  have htable := elfHeaderOk_table hsize (Bool.eq_true_of_not_eq_false hgood)
  have hoffs : ∀ off ∈ phdrOffsets kbuf, off + phdrSize ≤ kbuf.length := by
    intro off hoff
    obtain ⟨i, hi, rfl⟩ := mem_map.mp hoff
    have hi := mem_range.mp hi
    simp only [phdrSize] at *
    omega
  have honce : ∀ s ∈ (0, ehdrSize) :: (loadSegmentsTraced kbuf l0 k 0 (phdrOffsets kbuf)).2,
      s.1 + s.2 ≤ kbuf.length := by
    intro s hs
    rcases mem_cons.mp hs with rfl | hs
    · exact hehdr
    · exact loadSegmentsTraced_reads kbuf l0 k 0 hoffs s hs
  have htwice : ∀ s ∈ (0, ehdrSize) :: (loadSegmentsTraced kbuf l0 k 0 (phdrOffsets kbuf)).2 ++
      (phdrOffsets kbuf).map (fun off => (off, phdrSize)), s.1 + s.2 ≤ kbuf.length := by
    intro s hs
    rcases mem_append.mp hs with hs | hs
    · exact honce s hs
    · obtain ⟨off, hoff, rfl⟩ := mem_map.mp hs
      exact hoffs off hoff
  dsimp only at hs
  split at hs
  · exact honce s hs
  split at hs
  · exact honce s hs
  · split at hs
    · exact htwice s hs
    · exact htwice s hs

/-! ## Mappings -/

lemma elfPflagsToPte_el0Write (pflags : Nat) : el0Write (elfPflagsToPte pflags) = pflags.testBit 1 := by
  unfold elfPflagsToPte
  cases pflags.testBit 1 <;> cases pflags.testBit 0 <;> decide

lemma elfPflagsToPte_el0Exec (pflags : Nat) : el0Exec (elfPflagsToPte pflags) = pflags.testBit 0 := by
  unfold elfPflagsToPte
  cases pflags.testBit 1 <;> cases pflags.testBit 0 <;> decide

/-- A descriptor that comes from a segment belongs to a page below the stack's top, and it does not
grant writing and execution together. -/
lemma Phdr.Loaded.at? {kbuf : List UInt8} {k : Kernel} {ph : Phdr} {r : ElfRegion}
    (h : ph.Loaded kbuf k r) {a : Nat} {w : Pte} (hw : r.mapping.at? a = some w) :
    a < userStackTop ∧ ¬ (el0Write w = true ∧ el0Exec w = true) := by
  obtain ⟨⟨hlo, hhi⟩, rfl⟩ := Mapping.at?_some hw
  constructor
  · obtain ⟨-, -, hal, htop⟩ := ph.fits h.ok
    have hva : r.mapping.va = ph.vaLo := h.va
    have hpages : r.mapping.pages = ph.pages := h.pages
    omega
  rintro ⟨hwr, hex⟩
  have hflags : r.mapping.flags = elfPflagsToPte ph.flags := by
    rw [← h.flags]
    rfl
  rw [hflags, leafPte_el0Write, elfPflagsToPte_el0Write] at hwr
  rw [hflags, leafPte_el0Exec, elfPflagsToPte_el0Exec] at hex
  obtain ⟨-, -, -, -, hwx⟩ := Phdr.ok_bounds h.ok
  simp only [Phdr.w, Phdr.x, hwr, hex, Bool.and_self] at hwx
  cases hwx

/-! ## The loader as a whole -/

/-- What `elf_load` may do with a buffer, an address space and the state it starts from. -/
structure LoadSafe (kbuf : List UInt8) (l0 : Nat) (k : Kernel) : Prop where
  /-- The run with the list of reads is the loader's run. -/
  traced : (elfLoadTraced kbuf l0 k).1 = elfLoad kbuf l0 k
  reads : ∀ s ∈ (elfLoadTraced kbuf l0 k).2, s.1 + s.2 ≤ kbuf.length
  /-- Contents change on pages of the segments only, and those were free before. -/
  frames : ∀ p, p % 4096 = 0 → p ∉ segmentPages kbuf l0 k → (elfLoad kbuf l0 k).k.frame p = k.frame p
  fresh : ∀ x ∈ segmentPages kbuf l0 k, ¬ k.pmm.Allocated x
  tables : ∀ l, l ≠ l0 → (elfLoad kbuf l0 k).k.tables l = k.tables l
  leaves : ∀ a, (elfLoad kbuf l0 k).k.leaf l0 a = k.leaf l0 a ∨
    ∃ w, (elfLoad kbuf l0 k).k.leaf l0 a = some w ∧ a < userStackTop ∧
      ¬ (el0Write w = true ∧ el0Exec w = true)
  entry : ∀ img, (elfLoad kbuf l0 k).out = some img → ∃ ph ∈ phdrs kbuf, ph.isLoad = true ∧
    ph.x = true ∧ ph.vaddr ≤ img.entry ∧ img.entry < ph.vaddr + ph.memsz
  /-- An accepted file keeps the pages of its segments, besides pages of the table. -/
  accepted : ∀ img, (elfLoad kbuf l0 k).out = some img →
    regionPages img.regions = segmentPages kbuf l0 k ∧
      Kernel.Took l0 (segmentPages kbuf l0 k) k (elfLoad kbuf l0 k).k
  /-- A refused file has them all given back, and nothing else. -/
  refused : (elfLoad kbuf l0 k).out = none →
    (∃ k1, Kernel.Took l0 (segmentPages kbuf l0 k) k k1 ∧
      (elfLoad kbuf l0 k).k = k1.pmmFreeList (segmentPages kbuf l0 k)) ∧
    Kernel.Took l0 [] k (elfLoad kbuf l0 k).k

lemma elfEntryOk_cases {kbuf : List UInt8} (h : elfEntryOk kbuf = true) :
    ∃ ph ∈ phdrs kbuf, ph.isLoad = true ∧ ph.x = true ∧ ph.vaddr ≤ eEntry kbuf ∧
      eEntry kbuf < add64 ph.vaddr ph.memsz := by
  obtain ⟨ph, hmem, hph⟩ := any_eq_true.mp h
  simp only [Bool.and_eq_true, decide_eq_true_eq] at hph
  exact ⟨ph, hmem, hph.1.1.1, hph.2, hph.1.1.2, hph.1.2⟩

/-- Giving back the segments leaves what the table took. -/
lemma Kernel.Took.free {l0 : Nat} {xs : List Nat} {k k' : Kernel} (h : Kernel.Took l0 xs k k') :
    Kernel.Took l0 [] k (k'.pmmFreeList xs) := by
  obtain ⟨ts, hpages, hg⟩ := h
  refine ⟨ts, hpages, ?_⟩
  rw [append_nil]
  exact (hg.perm perm_append_comm).free

/-- **The loader is safe** on every buffer of at most a megabyte. -/
theorem elfLoad_safe (kbuf : List UInt8) (hsize : kbuf.length ≤ 2 ^ 20) (l0 : Nat) (k : Kernel) :
    LoadSafe kbuf l0 k := by
  obtain ⟨k1, rs, hb, hloaded, hcase⟩ := elfLoad_outcome kbuf l0 k
  -- in both outcomes the state differs from `k1` in the allocator only
  have hrest : (elfLoad kbuf l0 k).k.frame = k1.frame ∧ (elfLoad kbuf l0 k).k.tables = k1.tables := by
    split at hcase
    · rw [hcase.1]
      exact ⟨rfl, rfl⟩
    · rw [hcase]
      exact ⟨rfl, rfl⟩
  refine ⟨elfLoadTraced_fst kbuf l0 k, elfLoadTraced_reads hsize l0 k, ?_, hb.fresh, ?_, ?_, ?_, ?_,
    ?_⟩
  · intro p hp hx
    rw [hrest.1]
    exact hb.frame p hp hx
  · intro l hl
    rw [hrest.2]
    exact hb.tables l hl
  · intro a
    obtain ⟨ms, hcut, -, hleaf⟩ := hb.leaf
    have hsame : (elfLoad kbuf l0 k).k.leaf l0 a = k1.leaf l0 a := by
      rw [Kernel.leaf, Kernel.leaf, hrest.2]
    rw [hsame, hleaf]
    cases hover : overlay ms a with
    | none => exact .inl (Option.none_or)
    | some w =>
      -- the descriptor comes from one of the segments
      obtain ⟨m', hm', hat⟩ := overlay_some hover
      obtain ⟨m0, hm0, hc⟩ := exists_left_of_forall₂ hcut hm'
      obtain ⟨r, hr, rfl⟩ := mem_map.mp hm0
      obtain ⟨-, ph, hph⟩ := hloaded r hr
      exact .inr ⟨w, Option.some_or, hph.at? (hc.at? hat)⟩
  · intro img himg
    rw [himg] at hcase
    obtain ⟨-, rfl, -, -, hok, -, hall⟩ := hcase
    obtain ⟨ph, hmem, hload, hx, hlo, hhi⟩ := elfEntryOk_cases hok
    obtain ⟨r, -, hph⟩ := exists_right_of_forall₂ hall (mem_filter.mpr ⟨hmem, hload⟩)
    obtain ⟨-, -, -, htop, -⟩ := Phdr.ok_bounds hph.ok
    have hsum : add64 ph.vaddr ph.memsz = ph.vaddr + ph.memsz :=
      Nat.mod_eq_of_lt (by simp only [userStackTop] at htop; omega)
    exact ⟨ph, hmem, hload, hx, hlo, hsum ▸ hhi⟩
  · intro img himg
    rw [himg] at hcase
    obtain ⟨hk, rfl, -, -, -, hpages, -⟩ := hcase
    rw [hk]
    exact ⟨hpages.symm, hb.took⟩
  intro hnone
  rw [hnone] at hcase
  rw [hcase]
  exact ⟨⟨k1, hb.took, rfl⟩, hb.took.free⟩

/-! ## Files -/

/-- A number in `width` bytes, least significant byte first. -/
def leBytes (n width : Nat) : List UInt8 := (range width).map (byteOf n)

/-- A program header as it stands in a file. -/
def phdrBytes (ph : Phdr) : List UInt8 :=
  leBytes ph.type 4 ++ leBytes ph.flags 4 ++ leBytes ph.offset 8 ++ leBytes ph.vaddr 8 ++
    leBytes 0 8 ++ leBytes ph.filesz 8 ++ leBytes ph.memsz 8 ++ leBytes 0 8

/-- A file with the headers `phs` behind the ELF header and the bytes `rest` behind them. -/
def elfFile (entry : Nat) (phs : List Phdr) (rest : List UInt8) : List UInt8 :=
  [0x7F, 0x45, 0x4C, 0x46, 2, 1, 1] ++ replicate 9 0 ++ leBytes 2 2 ++ leBytes 0xB7 2 ++
    leBytes 1 4 ++ leBytes entry 8 ++ leBytes ehdrSize 8 ++ leBytes 0 12 ++ leBytes ehdrSize 2 ++
    leBytes phdrSize 2 ++ leBytes phs.length 2 ++ leBytes 0 6 ++ phs.flatMap phdrBytes ++ rest

/-- One executable segment that holds the headers themselves. -/
def textOnly : List UInt8 := elfFile 0x400000 [⟨1, 5, 0, 0x400000, 120, 120, by decide⟩] []

theorem elfLoad_safe_textOnly : (elfLoad textOnly 0 (Kernel.boot virtCfg)).out.isSome = true ∧
      LoadSafe textOnly 0 (Kernel.boot virtCfg) :=
  ⟨by decide +kernel, elfLoad_safe textOnly (by decide +kernel) 0 (Kernel.boot virtCfg)⟩

end FermiOs
