import FermiOs.Syscall.ExecStack

/-!
# The bytes of a new image

Segments are rounded to whole pages and mapped one after the other, then the stack is mapped. Where two
of these ranges share a page, only the range mapped last can be seen there, with zeros around its own
bytes. So a program finds its segments as the file describes them exactly when, at every address of
every segment, the range mapped last happens to hold the same byte.
-/

namespace FermiOs
open Library List

/-! ## The range that shows -/

/-- The last mapping that covers an address is the one that is seen there. -/
lemma overlay_eq_find (ms : List Mapping) (a : Nat) :
    overlay ms a = (ms.reverse.find? fun m => decide (InPages m.va m.pages a)).bind (Mapping.at? · a) := by
  induction ms with
  | nil => rfl
  | cons m ms ih =>
    rw [overlay, ih, reverse_cons, find?_append]
    cases hfind : ms.reverse.find? fun m => decide (InPages m.va m.pages a) with
    | some m' =>
      have htest := find?_some hfind
      have hin : InPages m'.va m'.pages a := of_decide_eq_true htest
      rw [Option.some_or, Option.bind_some, Mapping.at?, if_pos hin, Option.some_or]
    | none =>
      rw [Option.none_or, Option.bind_none, Option.none_or]
      by_cases hin : InPages m.va m.pages a
      · rw [find?_cons_of_pos (by exact decide_eq_true hin), Option.bind_some]
      · rw [find?_cons_of_neg (by simp [hin]), find?_nil, Option.bind_none, Mapping.at?, if_neg hin]

/-- Searching two lists that correspond with tests that correspond. -/
lemma forall₂_find? {α β : Type} {R : α → β → Prop} {p : α → Bool} {q : β → Bool} {xs : List α}
    {ys : List β} (h : Forall₂ R xs ys) (hpq : ∀ x y, R x y → p x = q y) :
    Option.Rel R (xs.find? p) (ys.find? q) := by
  induction h with
  | nil => exact .none
  | @cons x y xs ys hxy hrest ih =>
    cases hx : p x with
    | true =>
      rw [find?_cons_of_pos hx, find?_cons_of_pos ((hpq x y hxy).symm.trans hx)]
      exact .some hxy
    | false =>
      have hy : q y = false := (hpq x y hxy).symm.trans hx
      rw [find?_cons_of_neg (by rw [hx]; exact Bool.false_ne_true),
        find?_cons_of_neg (by rw [hy]; exact Bool.false_ne_true)]
      exact ih

section
variable (data : List UInt8)

/-- What the file says about an image, without the pages it is loaded to. -/
def fileImage : ElfImage where
  entry := eEntry data
  regions := []
  phdrVa := elfPhdrVa data
  phentsize := leField data 54 2
  phnum := ePhnum data

/-- The byte of the range that is mapped last at an address: the stack, or the last segment whose pages
cover it. -/
def shownByte (call : ExecCall) (a : Nat) : UInt8 :=
  if InPages stackInitialLo userStackPages a then stackByte (fileImage data) call a
  else
    match (loads data).reverse.find? fun ph => decide (InPages ph.vaLo ph.pages a) with
    | some ph => ph.byte data a
    | none => 0

/-- At every address of every segment, the range mapped last there holds the byte of the segment. -/
def SegmentsAgree (call : ExecCall) : Prop :=
  ∀ ph ∈ loads data, ∀ a, ph.vaddr ≤ a → a < ph.vaddr + ph.memsz →
    shownByte data call a = ph.byte data a

end

/-- The program reads its segments and its header table as the file has them. -/
structure ImageReads (data : List UInt8) (t : Task) (k : Kernel) : Prop where
  file : ∀ ph ∈ loads data, ∀ i < ph.filesz,
    k.userByte t.l0 (ph.vaddr + i) = some (data.getD (ph.offset + i) 0)
  zero : ∀ ph ∈ loads data, ∀ i, ph.filesz ≤ i → i < ph.memsz →
    k.userByte t.l0 (ph.vaddr + i) = some 0
  /-- `AT_PHDR` -/
  phdr : elfPhdrVa data ≠ 0 → ∀ i < ePhnum data * phdrSize,
    k.userByte t.l0 (elfPhdrVa data + i) = some (data.getD (ePhoff data + i) 0)

/-! ## Contents of the pages -/

/-- The arguments are written to stack pages only. -/
lemma execStack_frame {k : Kernel} {stack : Nat} (img : ElfImage) {call : ExecCall}
    (hl : StackLayout call.args) (hal : stack % 4096 = 0) {p : Nat} (hp : p % 4096 = 0)
    (hx : p ∉ pagesFrom stack userStackPages) :
    (execStack k stack img call).frame p = k.frame p := by
  have htop : userStackTop = stackInitialLo + userStackPages * 4096 := by decide
  obtain ⟨hl1, hl2, hl3, hl4, -⟩ := hl
  have hlen := stackBytes_length img call.args
  have htake : (call.random.take 16).length ≤ 16 := length_take_le _ _
  -- each of the four stores stays in the run
  have hone : ∀ (k : Kernel) (a : Nat) (bytes : List UInt8), stackInitialLo ≤ a →
      a + bytes.length ≤ userStackTop →
      (k.writeBytes (stack + (a - stackInitialLo)) bytes).frame p = k.frame p := by
    intro k a bytes hlo hhi
    exact writeBytes_frame k (Nat.le_add_right _ _) (by omega) (.inr hal) p hp hx
  unfold execStack
  rw [hone _ _ _ (by omega) (by rw [show (stackWords img call.args).flatMap wordBytes =
      stackBytes img call.args from rfl]; omega), hone _ _ _ (by omega) (by omega),
    hone _ _ _ (by omega) (by rw [length_replicate]; omega), hone _ _ _ (by omega) (by omega)]

lemma elfPflagsToPte_el0Read (pflags : Nat) : el0Read (elfPflagsToPte pflags) = true := by
  unfold elfPflagsToPte
  cases pflags.testBit 1 <;> cases pflags.testBit 0 <;> decide

lemma stackByte_fileImage {data : List UInt8} {img : ElfImage} (h : img.entry = eEntry data ∧
    img.phdrVa = elfPhdrVa data ∧ img.phentsize = leField data 54 2 ∧ img.phnum = ePhnum data)
    (call : ExecCall) : stackByte img call = stackByte (fileImage data) call := by
  obtain ⟨h1, h2, h3, h4⟩ := h
  have hwords : stackBytes img call.args = stackBytes (fileImage data) call.args := by
    simp only [stackBytes, stackWords, auxVector, h1, h2, h3, h4]
    rfl
  funext va
  rw [stackByte, stackByte, hwords]

section
variable {k k1 : Kernel} {t : Task} {call : ExecCall} {f : ExecFile} {sp : ExecSpace}
  (h : ExecReached k t call f sp k1) (hgranted : tablesGranted k call = true)
include h hgranted

/-- With all table pages granted nothing is cut. -/
lemma ExecReached.leaf_mapped (a : Nat) :
    k1.leaf sp.l0 a = (((tlsMapping sp.tls).at? a).or ((stackMapping sp.stack).at? a)).or
      (overlay (sp.img.regions.map ElfRegion.mapping) a) := by
  obtain ⟨ms, -, hok, hleaf⟩ := h.ready.built.leaf
  rw [h.granted] at hgranted
  rw [hleaf, hok.mp hgranted, overlay_append, overlay_append]
  simp only [overlay, Option.none_or]

/-- **What shows** at an address of the stack or of a segment's pages. -/
lemma ExecReached.userByte_shown {a : Nat} (ha : a < userStackTop)
    (hcover : ∃ ph ∈ loads f.data, InPages ph.vaLo ph.pages a) :
    (execSwitch k1 t sp call).userByte (execTask t sp (ttbrPack sp.l0 (schedAsidAlloc k1).1)).l0 a =
      some (shownByte f.data call a) := by
  have hfill := execSpace_filled h.space
  have hmappable := h.ready.mappable hfill
  have hlayout := stackLayout_of_fits h.fits.1 h.fits.2
  have hleaf := h.leaf_mapped hgranted
  have htls : ∀ b, b < userStackTop → (tlsMapping sp.tls).at? b = none := by
    intro b hb
    refine if_neg fun hin => ?_
    have hlo : userTlsBase / 4096 ≤ b / 4096 := hin.1
    have h1 : userTlsBase / 4096 = 0xB00 := by decide
    have h2 : userStackTop = 0x800000 := rfl
    omega
  have hstackAt : ∀ b, InPages stackInitialLo userStackPages b → (stackMapping sp.stack).at? b =
      some (leafPte (sp.stack + (b / 4096 - stackInitialLo / 4096) * 4096) stackFlags) :=
    fun b hin => if_pos hin
  have hlo0 : stackInitialLo % 4096 = 0 := by decide
  have htop : userStackTop = stackInitialLo + userStackPages * 4096 := by decide
  by_cases hstack : InPages stackInitialLo userStackPages a
  · -- the stack is mapped over the segments
    have hpoints : ∀ i < userStackPages, (execSwitch k1 t sp call).PointsAt
        (execTask t sp (ttbrPack sp.l0 (schedAsidAlloc k1).1)).l0 (stackInitialLo + i * 4096)
        (sp.stack + i * 4096) := by
      intro i hi
      have hin : InPages stackInitialLo userStackPages (stackInitialLo + i * 4096) := by
        simp only [InPages]
        omega
      have hidx : (stackInitialLo + i * 4096) / 4096 - stackInitialLo / 4096 = i := by omega
      have hat := hstackAt _ hin
      have hmem : stackMapping sp.stack ∈ sp.mappings := mem_append_right _
        (mem_append_left _ (mem_singleton_self _))
      obtain ⟨-, hframe⟩ := hmappable.frame_at? hmem hat
      refine ⟨_, ?_, hframe.trans ?_⟩
      · rw [h.leaf_eq, hleaf, htls _ (by omega), hat, Option.none_or, Option.some_or]
      · rw [show (stackMapping sp.stack).va = stackInitialLo from rfl, hidx]
        rfl
    have hshow := h.showsStack hpoints a (by simp only [InPages] at hstack; omega) ha
    rw [hshow, shownByte, if_pos hstack, stackByte_fileImage hfill.info]
  have hnone : (stackMapping sp.stack).at? a = none := if_neg hstack
  -- the last record that covers the address belongs to the last header that does
  have hrel : Option.Rel (fun ph m => ∃ r, m = ElfRegion.mapping r ∧ r ∈ sp.img.regions ∧
        ph.Loaded f.data k1 r)
      ((loads f.data).reverse.find? fun ph => decide (InPages ph.vaLo ph.pages a))
      ((sp.img.regions.map ElfRegion.mapping).reverse.find? fun m =>
        decide (InPages m.va m.pages a)) := by
    refine forall₂_find? ?_ ?_
    · rw [List.forall₂_reverse_iff, List.forall₂_map_right_iff]
      exact forall₂_imp_mem hfill.regions fun ph r hr hph => ⟨r, rfl, hr, hph⟩
    · rintro ph m ⟨r, rfl, -, hph⟩
      rw [← hph.va, ← hph.pages]
      rfl
  rw [shownByte, if_neg hstack, Kernel.userByte, h.leaf_eq, hleaf, htls a ha, hnone, Option.none_or,
    Option.none_or, overlay_eq_find]
  cases hfind : (loads f.data).reverse.find? fun ph => decide (InPages ph.vaLo ph.pages a) with
  | none =>
    obtain ⟨ph, hph, hin⟩ := hcover
    have := find?_eq_none.mp hfind ph (mem_reverse.mpr hph)
    exact absurd (decide_eq_true hin) this
  | some ph =>
    rw [hfind] at hrel
    generalize (sp.img.regions.map ElfRegion.mapping).reverse.find? (fun m =>
      decide (InPages m.va m.pages a)) = o at hrel
    cases hrel with
    | some hx =>
      obtain ⟨r, rfl, hr, hph⟩ := hx
      have htest := find?_some hfind
      have hin : InPages ph.vaLo ph.pages a := of_decide_eq_true htest
      have hin' : InPages r.mapping.va r.mapping.pages a := by
        show InPages r.va r.pages a
        rw [hph.va, hph.pages]
        exact hin
      have hat : r.mapping.at? a = some (leafPte (r.phys + (a / 4096 - r.va / 4096) * 4096)
        (elfPflagsToPte r.flags)) := if_pos hin'
      obtain ⟨hj, hframe⟩ := hmappable.frame_at?
        (mem_append_left _ (mem_map_of_mem hr)) hat
      rw [Option.bind_some, hat]
      dsimp only
      rw [leafPte_el0Read, elfPflagsToPte_el0Read, if_pos rfl, hframe]
      have hpage : r.phys + (a / 4096 - r.va / 4096) * 4096 ∈ regionPages sp.img.regions :=
        mem_flatMap.mpr ⟨r, hr, mem_pagesFrom.mpr ⟨_, hj, rfl⟩⟩
      have hbounds := (h.ready.built.taken _ (mem_append_right _ (mem_append_left _ hpage))).bounds
      have hst := (h.ready.built.taken sp.stack (mem_append_right _ (mem_append_right _
        (mem_pagesFrom.mpr ⟨0, by decide, by omega⟩)))).bounds
      have hbyte := hph.bytes a hin
      rw [← hph.va] at hbyte
      rw [← hbyte, (execSwitch_tables k1 t sp call).2]
      exact congrArg some (congrFun (execStack_frame sp.img hlayout hst.1 hbounds.1
        (h.ready.stack_fresh hpage)) _)

end

/-! ## When the image reads as the file says -/

/-- The header table, where a segment holds all of it. -/
lemma elfPhdrVa_cases {data : List UInt8} (h : elfPhdrVa data ≠ 0) :
    ∃ ph ∈ loads data, ph.offset ≤ ePhoff data ∧
      add64 (ePhoff data) (ePhnum data * phdrSize) ≤ add64 ph.offset ph.filesz ∧
      elfPhdrVa data = add64 ph.vaddr (ePhoff data - ph.offset) := by
  unfold elfPhdrVa at h ⊢
  dsimp only at h ⊢
  split
  · rename_i ph hfind
    have htest := find?_some hfind
    simp only [Bool.and_eq_true, decide_eq_true_eq] at htest
    exact ⟨ph, mem_filter.mpr ⟨mem_of_find?_eq_some hfind, htest.1.1⟩, htest.1.2, htest.2, rfl⟩
  · rename_i hnone
    rw [hnone] at h
    exact absurd rfl h

/-- **The new image** reads as its file describes it, with memory for all its tables, exactly when the
range mapped last agrees with every segment it covers. -/
theorem exec_bytes_iff {k k' : Kernel} {t t' : Task} {call : ExecCall} {f : ExecFile}
    (hcall : sysExec k t call = (0, t', k')) (hfile : call.file = some f)
    (hgranted : tablesGranted k call = true) :
    ImageReads f.data t' k' ↔ SegmentsAgree f.data call := by
  obtain ⟨f', sp, k1, hr, rfl, rfl⟩ := sysExec_reached hcall
  have hf : f = f' := Option.mem_unique hfile hr.file
  subst hf
  have hfill := execSpace_filled hr.space
  have hok : ∀ ph ∈ loads f.data, ph.ok f.data.length = true := by
    intro ph hph
    obtain ⟨r, -, hl⟩ := exists_right_of_forall₂ hfill.regions hph
    exact hl.ok
  -- what a program reads at an address of a segment
  have hread : ∀ ph ∈ loads f.data, ∀ a, ph.vaddr ≤ a → a < ph.vaddr + ph.memsz →
      (execSwitch k1 t sp call).userByte (execTask t sp (ttbrPack sp.l0 (schedAsidAlloc k1).1)).l0 a =
        some (shownByte f.data call a) := by
    intro ph hph a hlo hhi
    obtain ⟨-, -, -, htop, -⟩ := Phdr.ok_bounds (hok ph hph)
    exact hr.userByte_shown hgranted (by omega)
      ⟨ph, hph, Phdr.inPages_of_mem (hok ph hph) hlo hhi⟩
  constructor
  · rintro ⟨hbytes, hzero, -⟩ ph hph a hlo hhi
    refine Option.some.inj ((hread ph hph a hlo hhi).symm.trans ?_)
    have ha : ph.vaddr + (a - ph.vaddr) = a := by omega
    by_cases hin : a < ph.vaddr + ph.filesz
    · rw [Phdr.byte, if_pos ⟨hlo, hin⟩, ← hbytes ph hph (a - ph.vaddr) (by omega), ha]
    · rw [Phdr.byte, if_neg fun hc => hin hc.2, ← hzero ph hph (a - ph.vaddr) (by omega) (by omega), ha]
  intro hagree
  have hfileByte : ∀ ph ∈ loads f.data, ∀ i < ph.filesz, (execSwitch k1 t sp call).userByte
      (execTask t sp (ttbrPack sp.l0 (schedAsidAlloc k1).1)).l0 (ph.vaddr + i) =
        some (f.data.getD (ph.offset + i) 0) := by
    intro ph hph i hi
    have hle := (Phdr.ok_bounds (hok ph hph)).1
    rw [hread ph hph _ (by omega) (by omega), hagree ph hph _ (by omega) (by omega), Phdr.byte,
      if_pos (by omega), Nat.add_sub_cancel_left]
  refine ⟨hfileByte, fun ph hph i hlo hhi => ?_, fun hne i hi => ?_⟩
  · rw [hread ph hph _ (by omega) (by omega), hagree ph hph _ (by omega) (by omega), Phdr.byte,
      if_neg (by omega)]
  -- the table lies inside the file part of one segment
  obtain ⟨ph, hph, hoff, hend, hva⟩ := elfPhdrVa_cases hne
  obtain ⟨hmem, hslice, -, htop, -⟩ := Phdr.ok_bounds (hok ph hph)
  have htable := elfHeaderOk_table hr.size hfill.header
  have hsize := hr.size
  have hsum1 : add64 (ePhoff f.data) (ePhnum f.data * phdrSize) =
      ePhoff f.data + ePhnum f.data * phdrSize := Nat.mod_eq_of_lt (by omega)
  have hsum2 : add64 ph.offset ph.filesz = ph.offset + ph.filesz := Nat.mod_eq_of_lt (by omega)
  have hsum3 : add64 ph.vaddr (ePhoff f.data - ph.offset) =
      ph.vaddr + (ePhoff f.data - ph.offset) :=
    Nat.mod_eq_of_lt (by simp only [userStackTop] at htop; omega)
  rw [hva, hsum3, add_assoc, hfileByte ph hph _ (by omega)]
  congr 2
  omega

theorem exec_bytes_textOnly : tablesGranted (Kernel.boot virtCfg) textOnlyCall = true ∧
      (ImageReads textOnly (sysExec (Kernel.boot virtCfg) bareTask textOnlyCall).2.1
          (sysExec (Kernel.boot virtCfg) bareTask textOnlyCall).2.2 ↔
        SegmentsAgree textOnly textOnlyCall) :=
  have hzero : (sysExec (Kernel.boot virtCfg) bareTask textOnlyCall).1 = 0 := by decide +kernel
  have hgranted : tablesGranted (Kernel.boot virtCfg) textOnlyCall = true := by decide +kernel
  ⟨hgranted, exec_bytes_iff (f := ⟨textOnly.length, textOnly⟩) (sysExec_eta hzero) rfl hgranted⟩

/-- The text of `sharedPage`. -/
def sharedText : Phdr := ⟨1, 5, 0, 0x400000, 176, 176, by decide⟩

/-- A writable segment half a page behind the text. -/
def sharedPage : List UInt8 :=
  elfFile 0x400000 [sharedText, ⟨1, 6, 0, 0x400800, 16, 16, by decide⟩] []

/-- A call that loads `sharedPage` without arguments. -/
def sharedPageCall : ExecCall := ⟨some ⟨sharedPage.length, sharedPage⟩, [], []⟩

/-- The second segment replaces the page of the text: the first byte of the text reads as zero. -/
theorem exec_hides_shared_page : (sysExec (Kernel.boot virtCfg) bareTask sharedPageCall).1 = 0 ∧
      tablesGranted (Kernel.boot virtCfg) sharedPageCall = true ∧
      ¬ ImageReads sharedPage (sysExec (Kernel.boot virtCfg) bareTask sharedPageCall).2.1
        (sysExec (Kernel.boot virtCfg) bareTask sharedPageCall).2.2 := by
  refine ⟨by decide +kernel, by decide +kernel, fun h => ?_⟩
  have hmem : sharedText ∈ loads sharedPage := by decide +kernel
  have hbyte := h.file sharedText hmem 0 (by decide)
  have hreal : (sysExec (Kernel.boot virtCfg) bareTask sharedPageCall).2.2.userByte
      (sysExec (Kernel.boot virtCfg) bareTask sharedPageCall).2.1.l0 (sharedText.vaddr + 0) =
        some 0 := by decide +kernel
  exact absurd (hreal.symm.trans hbyte) (by decide +kernel)

end FermiOs
