import FermiOs.Syscall.Elf

/-!
# The loaded image

What the loop of `elf_load` leaves behind for each segment: a run of pages for the page span of the
segment, recorded with its address and flags, whose bytes are those of the file and zeros around them.
The list of records follows the list of `PT_LOAD` headers; it is shorter when the loader gave up.
-/

namespace FermiOs
open Library List

namespace Phdr

/-- The byte a segment puts at an address of its page span: the file's, or zero. -/
def byte (kbuf : List UInt8) (ph : Phdr) (a : Nat) : UInt8 :=
  if ph.vaddr ≤ a ∧ a < ph.vaddr + ph.filesz then kbuf.getD (ph.offset + (a - ph.vaddr)) 0 else 0

/-- `r` records the run of pages that holds segment `ph`. -/
structure Loaded (kbuf : List UInt8) (k : Kernel) (ph : Phdr) (r : ElfRegion) : Prop where
  ok : ph.ok kbuf.length = true
  pages : r.pages = ph.pages
  va : r.va = ph.vaLo
  flags : r.flags = ph.flags
  bytes : ∀ a, InPages ph.vaLo ph.pages a →
    k.frame (r.phys + (a / 4096 - ph.vaLo / 4096) * 4096) (a % 4096) = ph.byte kbuf a

variable {a size : Nat} {ph : Phdr}

section
variable (h : ph.ok size = true)
include h

/-- The checks of a segment, without the wrap-around of the sums. -/
lemma ok_bounds : ph.filesz ≤ ph.memsz ∧ ph.offset + ph.filesz ≤ size ∧ ph.vaddr < userStackTop ∧
      ph.vaddr + ph.memsz ≤ userStackTop ∧ (ph.w && ph.x) = false := by
  simp only [Phdr.ok, Bool.and_eq_true, decide_eq_true_eq, Bool.not_eq_true'] at h
  obtain ⟨⟨⟨⟨⟨⟨⟨h1, h2⟩, h3⟩, h4⟩, h5⟩, h6⟩, h7⟩, -⟩ := h
  have hlt := ph.memsz_lt
  simp only [add64, userStackTop] at *
  refine ⟨h1, ?_, h4, ?_, h7⟩
  · omega
  · omega

/-- The page span of a segment covers the segment and ends with its last page. -/
lemma span_eq : ph.vaLo % 4096 = 0 ∧ ph.vaLo ≤ ph.vaddr ∧
      ph.vaLo + ph.pages * 4096 = (ph.vaddr + ph.memsz + 4095) / 4096 * 4096 := by
  obtain ⟨-, -, h4, h5, -⟩ := ok_bounds h
  have hsum : add64 ph.vaddr ph.memsz = ph.vaddr + ph.memsz :=
    Nat.mod_eq_of_lt (by simp only [userStackTop] at h5; omega)
  rw [pages, hsum, pageAlignUp_of_lt (by simp only [userStackTop] at h5; omega), vaLo, pageAlignDown]
  omega

/-- A segment's addresses lie on the pages of its span. -/
lemma inPages_of_mem (hlo : ph.vaddr ≤ a) (hhi : a < ph.vaddr + ph.memsz) :
    InPages ph.vaLo ph.pages a := by
  obtain ⟨h1, h2, h3⟩ := span_eq h
  simp only [InPages]
  omega

end

/-- Clearing the run and copying the slice of the file give every byte of the span. -/
lemma byte_eq {kbuf : List UInt8} (hok : ph.ok kbuf.length = true) (k : Kernel) (phys : Nat)
    (hin : InPages ph.vaLo ph.pages a) :
    ((k.memsetPages phys ph.pages).writeBytes (phys + (ph.vaddr - ph.vaLo))
        ((kbuf.drop ph.offset).take ph.filesz)).frame
        (phys + (a / 4096 - ph.vaLo / 4096) * 4096) (a % 4096) = ph.byte kbuf a := by
  obtain ⟨-, hslice, -, -, -⟩ := ok_bounds hok
  obtain ⟨hal, hle, -⟩ := span_eq hok
  have hlen : ((kbuf.drop ph.offset).take ph.filesz).length = ph.filesz := by
    rw [length_take, length_drop]
    omega
  simp only [InPages] at hin
  simp only [Kernel.writeBytes, Kernel.memsetPages, hlen, Phdr.byte]
  by_cases hbyte : ph.vaddr ≤ a ∧ a < ph.vaddr + ph.filesz
  · -- a byte of the file
    have hidx : phys + (a / 4096 - ph.vaLo / 4096) * 4096 + a % 4096 -
        (phys + (ph.vaddr - ph.vaLo)) = a - ph.vaddr := by omega
    rw [if_pos hbyte, if_pos (by omega), hidx, getD_eq_getElem?_getD, getElem?_take,
      if_pos (by omega), getElem?_drop, getD_eq_getElem?_getD]
  · rw [if_neg hbyte, if_neg (by omega), if_pos (by omega)]

/-- A loaded segment stays loaded while its pages stay allocated and untouched. -/
lemma Loaded.kept {kbuf : List UInt8} {k k' : Kernel} {r : ElfRegion} (h : ph.Loaded kbuf k r)
    (hal : ∀ i < r.pages, k.pmm.Allocated (r.phys + i * 4096)) (hk : Kept k k') :
    ph.Loaded kbuf k' r := by
  refine ⟨h.ok, h.pages, h.va, h.flags, fun a ha => ?_⟩
  have hi : a / 4096 - ph.vaLo / 4096 < r.pages := by
    have := h.pages
    simp only [InPages] at ha
    omega
  rw [(hk _ (hal _ hi)).2]
  exact h.bytes a ha

end Phdr

/-- **The segment loop**: the runs it took are the runs it lists, and the records follow the `PT_LOAD`
headers, up to the header the loader gave up at. -/
lemma loadSegments_spec {kbuf : List UInt8} {l0 : Nat} {k : Kernel} {count : Nat} {phs : List Phdr}
    {r : Copy (List ElfRegion)} (h : loadSegments kbuf l0 k count phs = r) :
    Kernel.BuildStep l0 (regionPages r.out) (r.out.map ElfRegion.mapping) r.mapped k r.k ∧
      (∀ x ∈ r.out, x.phys ≠ 0) ∧
      ∃ done rest, phs.filter Phdr.isLoad = done ++ rest ∧
        Forall₂ (Phdr.Loaded kbuf r.k) done r.out ∧ (r.ok = true → rest = []) := by
  subst h
  induction phs generalizing k count with
  | nil => exact ⟨.refl l0 k, forall_mem_nil _, [], [], rfl, .nil, fun _ => rfl⟩
  | cons ph rest ih =>
    rw [loadSegments]
    split
    · -- not a segment to load
      rename_i hskip
      rw [filter_cons_of_neg (by rw [hskip]; exact Bool.false_ne_true)]
      exact ih
    rename_i hload
    rw [filter_cons_of_pos (Bool.eq_true_of_not_eq_false hload)]
    split_ifs with hgood
    · exact ⟨.refl l0 k, forall_mem_nil _, [], _, rfl, .nil, fun h => by cases h⟩
    have hok : ph.ok kbuf.length = true := Bool.eq_true_of_not_eq_false (not_or.mp hgood).1
    split
    · rename_i k1 hal
      exact ⟨buildStep_of_denied hal, forall_mem_nil _, [], _, rfl, .nil, fun h => by cases h⟩
    rename_i phys k1 hne hal
    rcases hmap : ((k1.memsetPages phys ph.pages).writeBytes (phys + (ph.vaddr - ph.vaLo))
      ((kbuf.drop ph.offset).take ph.filesz)).mmuMapUserRange l0 ph.vaLo phys ph.pages
        (elfPflagsToPte ph.flags) with ⟨m, k2⟩
    have htake : Kernel.BuildStep l0 (pagesFrom phys ph.pages) [] true k k1 := .take hal hne
    have hrun := Kernel.run_aligned htake.taken
    -- clearing and copying stay inside the run
    have hfill : ∀ p, p % 4096 = 0 → p ∉ pagesFrom phys ph.pages →
        ((k1.memsetPages phys ph.pages).writeBytes (phys + (ph.vaddr - ph.vaLo))
          ((kbuf.drop ph.offset).take ph.filesz)).frame p = k1.frame p := by
      intro p hp hx
      have hfit := (ph.fits hok).1
      have hlen : ((kbuf.drop ph.offset).take ph.filesz).length ≤ ph.filesz := length_take_le _ _
      exact (writeBytes_frame _ (Nat.le_add_right _ _) (by omega) hrun p hp hx).trans
        (Kernel.memsetPages_frame k1 hrun p hp hx)
    have hb := Kernel.BuildStep.takeMap hal hne hfill hmap
    obtain ⟨hs, -⟩ := Kernel.mmuMapUserRange_spec hmap
    have hhere : ph.Loaded kbuf k2 ⟨phys, ph.pages, ph.vaLo, ph.flags⟩ := by
      refine ⟨hok, rfl, rfl, rfl, fun a ha => ?_⟩
      rw [hs.frame]
      exact Phdr.byte_eq hok k1 phys ha
    obtain ⟨hb', hphys, done, left, hsplit, hall, hend⟩ := @ih k2 (count + 1)
    refine ⟨(hb.trans hb').perm perm_append_comm, forall_mem_cons.mpr ⟨hne, hphys⟩, ph :: done, left,
      by rw [hsplit, cons_append], .cons ?_ hall, hend⟩
    exact hhere.kept (fun i hi => hb.taken _ (mem_pagesFrom.mpr ⟨i, hi, rfl⟩)) hb'.kept

/-! ## The whole file -/

section
variable (kbuf : List UInt8) (l0 : Nat) (k : Kernel)

/-- The pages of the segments that were loaded, also when the file is refused in the end. -/
def segmentPages : List Nat :=
  if elfHeaderOk kbuf = false then []
  else regionPages (loadSegments kbuf l0 k 0 (phdrs kbuf)).out

/-- **The loader's outcome**: up to the last step it has taken the pages of the segments and made
their mappings. Then it keeps the pages as an image, or gives all of them back. -/
lemma elfLoad_outcome :
    ∃ k1 rs, Kernel.BuildStep l0 (segmentPages kbuf l0 k) (rs.map ElfRegion.mapping)
        (elfLoad kbuf l0 k).mapped k k1 ∧
      (∀ r ∈ rs, r.phys ≠ 0 ∧ ∃ ph, Phdr.Loaded kbuf k1 ph r) ∧
      match (elfLoad kbuf l0 k).out with
      | some img => (elfLoad kbuf l0 k).k = k1 ∧
          img = ⟨eEntry kbuf, rs, elfPhdrVa kbuf, leField kbuf 54 2, ePhnum kbuf⟩ ∧ rs ≠ [] ∧
          elfHeaderOk kbuf = true ∧ elfEntryOk kbuf = true ∧
          segmentPages kbuf l0 k = regionPages rs ∧
          Forall₂ (Phdr.Loaded kbuf k1) ((phdrs kbuf).filter Phdr.isLoad) rs
      | none => (elfLoad kbuf l0 k).k = k1.pmmFreeList (segmentPages kbuf l0 k) := by
  unfold elfLoad segmentPages
  split
  · -- the header is refused before anything is taken
    exact ⟨k, [], .refl l0 k, forall_mem_nil _, rfl⟩
  rename_i hheader
  dsimp only
  generalize hr : loadSegments kbuf l0 k 0 (phdrs kbuf) = r
  obtain ⟨hb, hphys, done, rest, hsplit, hall, hend⟩ := loadSegments_spec hr
  have heach : ∀ x ∈ r.out, x.phys ≠ 0 ∧ ∃ ph, Phdr.Loaded kbuf r.k ph x := by
    intro x hx
    obtain ⟨ph, -, hph⟩ := exists_left_of_forall₂ hall hx
    exact ⟨hphys x hx, ph, hph⟩
  refine ⟨r.k, r.out, ?_⟩
  split
  · exact ⟨hb, heach, freeRegions_eq hphys⟩
  rename_i hok
  split
  · rename_i hnil
    rw [hnil] at hb heach ⊢
    exact ⟨hb, heach, rfl⟩
  rename_i hne
  split_ifs with hentry
  · exact ⟨hb, heach, freeRegions_eq hphys⟩
  · rw [hend (Bool.eq_true_of_not_eq_false hok), append_nil] at hsplit
    rw [hsplit]
    exact ⟨hb, heach, rfl, rfl, hne, Bool.eq_true_of_not_eq_false hheader,
      Bool.eq_true_of_not_eq_false hentry, rfl, hall⟩

end
end FermiOs
