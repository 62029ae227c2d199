import FermiOs.Library.Links
import FermiOs.Sched.Create

/-!
# Fork

`sched_fork` of `sched/sched.c`. The child is rebuilt from the parent's records, one kind after the
other: image, stack, grown stack, TLS, regions. Each kind is a loop that takes pages, copies into them
and maps them.

The regions are special. `vma_clone` first copies the records with the parent's page pointers in
them, and a second loop replaces the pointers one by one. When an allocation fails in between, the
code that undoes the copy frees whatever the records name, and that includes pages of the parent. The
flag `copied` of the result tells whether this happened; the lemmas about the result are about forks
where it did not.
-/

namespace FermiOs
open Library
open List hiding set

/-! ## The phases -/

/-- Result of a copying loop: what was recorded, whether every allocation was granted, whether every
walk found its table pages. -/
structure Copy (α : Type) where
  out : α
  ok : Bool
  mapped : Bool
  k : Kernel

/-- The copy of the loaded segments. A refused allocation ends the loop. -/
def forkRegions (l0 : Nat) (k : Kernel) : List ElfRegion → Copy (List ElfRegion)
  | [] => ⟨[], true, true, k⟩
  | src :: rest =>
    match k.pmmAllocatePages src.pages with
    | (0, k) => ⟨[], false, true, k⟩
    | (dst, k) =>
      match (k.memcpyPages dst src.phys src.pages).mmuMapUserRange l0 src.va dst src.pages
          (elfPflagsToPte src.flags) with
      | (m, k) =>
        let r := forkRegions l0 k rest
        ⟨{ src with phys := dst } :: r.out, r.ok, m && r.mapped, r.k⟩

/-- The image: copied segments, or the kernel's own window for a task that was never loaded. -/
def forkImage (l0 : Nat) (k : Kernel) (regions : List ElfRegion) : Copy (List ElfRegion) :=
  if regions = [] then
    match k.mmuMapUserRange l0 userTextBase memStart k.pmm.cfg.textPages textFlags with
    | (m, k) => ⟨[], true, m, k⟩
  else forkRegions l0 k regions

/-- The copy of the grown stack. A refused allocation ends the loop and is tolerated. -/
def forkGrown (l0 : Nat) (k : Kernel) : List (Nat × Nat) → Copy (List (Nat × Nat))
  | [] => ⟨[], true, true, k⟩
  | (va, src) :: rest =>
    if src = 0 then forkGrown l0 k rest
    else
      match k.pmmAllocatePage with
      | (0, k) => ⟨[], false, true, k⟩
      | (dst, k) =>
        match (k.memcpyPages dst src 1).mmuMapUserRange l0 va dst 1 stackFlags with
        | (m, k) =>
          let r := forkGrown l0 k rest
          ⟨(va, dst) :: r.out, r.ok, m && r.mapped, r.k⟩

/-- The inner loop over the pages of one copied region: recorded pages are replaced by copies. After a
refused allocation the entries that remain are still the parent's. -/
def privatizePages (l0 : Nat) (flags : Pte) (k : Kernel) (va : Nat) : List Nat → Copy (List Nat)
  | [] => ⟨[], true, true, k⟩
  | src :: rest =>
    if src = 0 then
      let r := privatizePages l0 flags k (va + 4096) rest
      ⟨0 :: r.out, r.ok, r.mapped, r.k⟩
    else
      match k.pmmAllocatePage with
      | (0, k) => ⟨src :: rest, false, true, k⟩
      | (dst, k) =>
        match (k.memcpyPages dst src 1).mmuMapUserRange l0 va dst 1 flags with
        | (m, k) =>
          let r := privatizePages l0 flags k (va + 4096) rest
          ⟨dst :: r.out, r.ok, m && r.mapped, r.k⟩

/-- The outer loop, from entry `vi` on. A region that could not be copied is unmapped and dropped, and
the entry that moves into its place comes next. `fuel` bounds the number of entries looked at; a region
that cannot be dropped would be tried forever. -/
def privatizeVmas (l0 : Nat) : Nat → Nat → VmaSet → Kernel → Copy VmaSet
  | 0, _, set, k => ⟨set, false, true, k⟩
  | fuel + 1, vi, set, k =>
    match set[vi]? with
    | none => ⟨set, true, true, k⟩
    | some cv =>
      let r := privatizePages l0 (mmuProtToFlags cv.prot) k cv.start (cv.pages.take cv.npages)
      let set := set.set vi { cv with pages := r.out ++ cv.pages.drop cv.npages }
      if r.ok then
        let q := privatizeVmas l0 fuel (vi + 1) set r.k
        ⟨q.out, q.ok, r.mapped && q.mapped, q.k⟩
      else
        let u := vmaUnmapRange (r.k.mmuUnmapUserRange l0 cv.start cv.npages) set cv.start cv.end_
        let q := privatizeVmas l0 fuel vi u.2.1 u.2.2
        ⟨q.out, false, q.mapped, q.k⟩

/-- The copy of the regions. -/
def forkVmas (l0 : Nat) (k : Kernel) (vmas : VmaSet) : Copy VmaSet :=
  if vmas = [] then ⟨[], true, true, k⟩
  else
    match vmaClone k [] vmas with
    | (none, k) => ⟨[], false, true, k⟩
    | (some set, k) => privatizeVmas l0 (2 * set.length + k.grants.length + 1) 0 set k

/-- `fd_table_clone`: no table to copy, or no memory for the copy, give the null pointer. -/
def fdTableClone (k : Kernel) (fds : Bool) : Bool × Kernel := if fds then k.kmalloc else (false, k)

/-- Result of `sched_fork`. The three flags are not part of the return value: they tell which branches
were taken. `copied`: no allocation was refused while the regions were copied. `grownAll`: none for
the grown stack. `mapped`: every walk found its table pages. -/
structure ForkResult where
  child : Option Task
  copied : Bool
  grownAll : Bool
  mapped : Bool
  k : Kernel

/-- The record of the child. -/
def childTask (parent : Task) (pid kstack ttbr0 ustack tls : Nat) (regions : List ElfRegion)
    (grown : List (Nat × Nat)) (vmas : VmaSet) : Task where
  pid := pid
  ppid := parent.pid
  state := .ready
  exitCode := 0
  sleepUntil := 0
  stackPhys := kstack
  ttbr0 := ttbr0
  ustackPhys := ustack
  tlsPhys := tls
  regions := regions
  entry := if parent.regions = [] then 0 else parent.entry
  grown := grown
  vmas := vmas
  brkBase := parent.brkBase
  brkCur := parent.brkCur
  fds := true

/-- The child before its regions: its pages and tables so far, and the flags of the loops. -/
structure ForkSpace where
  kstack : Nat
  l0 : Nat
  regions : List ElfRegion
  ustack : Nat
  grown : List (Nat × Nat)
  tls : Nat
  grownAll : Bool
  mapped : Bool

/-- The first half of `sched_fork`: record, kernel stack, table, image, stack and TLS page. -/
def forkSpace (k : Kernel) (parent : Task) : Option ForkSpace × Kernel :=
  match k.kmalloc with
  | (false, k) => (none, k)
  | (true, k) =>
    match k.newSpace taskStackPages with
    | (none, k) => (none, k)
    | (some (kstack, l0), k) =>
      let img := forkImage l0 k parent.regions
      if img.ok = false then
        (none, ((img.k.pmmFreeList (img.out.flatMap fun r =>
          pagesFrom r.phys r.pages)).mmuFreeUserTables l0).pmmFreePages kstack taskStackPages)
      else
        match img.k.pmmAllocatePages userStackPages with
        | (0, k) => (none, (k.mmuFreeUserTables l0).pmmFreePages kstack taskStackPages)
        | (ustack, k) =>
          match (k.memcpyPages ustack parent.ustackPhys userStackPages).mmuMapUserRange l0
              stackInitialLo ustack userStackPages stackFlags with
          | (m1, k) =>
            let grown := forkGrown l0 k parent.grown
            match grown.k.pmmAllocatePage with
            | (0, k) =>
              (none, ((k.pmmFreePages ustack userStackPages).mmuFreeUserTables
                l0).pmmFreePages kstack taskStackPages)
            | (tls, k) =>
              match (k.memsetPages tls 1).mmuMapUserRange l0 userTlsBase tls 1
                  stackFlags with
              | (m2, k) =>
                (some ⟨kstack, l0, img.out, ustack, grown.out, tls, grown.ok,
                  img.mapped && m1 && grown.mapped && m2⟩, k)

/-- `sched_fork`. The pid is taken, and the ASID, before the descriptors are copied. -/
def schedFork (k : Kernel) (parent : Task) : ForkResult :=
  match forkSpace k parent with
  | (none, k) => ⟨none, true, true, true, k⟩
  | (some sp, k) =>
    let vmas := forkVmas sp.l0 k parent.vmas
    let asid := schedAsidAlloc { vmas.k with nextPid := vmas.k.nextPid + 1 }
    match fdTableClone asid.2 parent.fds with
    | (false, k) =>
      ⟨none, vmas.ok, sp.grownAll, sp.mapped && vmas.mapped,
        ((k.mmuFreeUserTables sp.l0).pmmFreePages sp.ustack userStackPages).pmmFreePages sp.kstack
          taskStackPages⟩
    | (true, k) =>
      ⟨some (childTask parent vmas.k.nextPid sp.kstack (ttbrPack sp.l0 asid.1) sp.ustack sp.tls
          sp.regions sp.grown vmas.out), vmas.ok, sp.grownAll, sp.mapped && vmas.mapped, k⟩

/-! ## Which request was refused -/

/-- The request of a fork the allocators refuse: the record, the kernel stack or the root of the table;
a segment of the image; the user stack; the TLS page, after some copies of grown stack pages; or none
of these. -/
inductive ForkRefusal
  | early
  | image
  | userStack
  | tls (grown : Nat)
  | later
  deriving DecidableEq

/-- The allocators' answers, followed up to the first refusal that ends the call. -/
def forkRefusal (k : Kernel) (parent : Task) : ForkRefusal :=
  match k.kmalloc with
  | (false, _) => .early
  | (true, k) =>
    match k.newSpace taskStackPages with
    | (none, _) => .early
    | (some (_, l0), k) =>
      let img := forkImage l0 k parent.regions
      if img.ok = false then .image
      else
        match img.k.pmmAllocatePages userStackPages with
        | (0, _) => .userStack
        | (ustack, k) =>
          match (k.memcpyPages ustack parent.ustackPhys userStackPages).mmuMapUserRange l0
              stackInitialLo ustack userStackPages stackFlags with
          | (_, k) =>
            let grown := forkGrown l0 k parent.grown
            match grown.k.pmmAllocatePage with
            | (0, _) => .tls grown.out.length
            | _ => .later

/-- Nothing had been copied that the exit forgets. -/
def ForkRefusal.Harmless (parent : Task) : ForkRefusal → Prop
  | .early => True
  | .image => True
  | .userStack => parent.regions = []
  | .tls grown => parent.regions = [] ∧ grown = 0
  | .later => False

/-! ## Copies -/

/-- What was allocated still is, with the same contents. -/
def Kept (k k' : Kernel) : Prop :=
  ∀ p, k.pmm.Allocated p → k'.pmm.Allocated p ∧ k'.frame p = k.frame p

lemma Kept.refl (k : Kernel) : Kept k k := fun _ h => ⟨h, rfl⟩

variable {flags : Pte} {k k' k'' k0 : Kernel} {l0 n src va : Nat} {ms : List Mapping}
  {parent : Task} {set : VmaSet} {v : Vma} {xs : List Nat}

lemma Kept.trans (h : Kept k k') (h' : Kept k' k'') : Kept k k'' := by
  intro p hp
  obtain ⟨h1, h2⟩ := h p hp
  obtain ⟨h3, h4⟩ := h' p h1
  exact ⟨h3, h4.trans h2⟩

lemma QuietStep.kept (h : QuietStep k k') : Kept k k' :=
  fun p hp => ⟨h.mono hp, h.frame p hp⟩

lemma Kernel.BuildStep.kept {ok : Bool} (h : Kernel.BuildStep l0 xs ms ok k k') : Kept k k' :=
  fun p hp => ⟨h.mono p hp, h.frame_allocated hp⟩

lemma Built.kept {ok : Bool} (h : Built k l0 xs ms ok k') : Kept k k' :=
  fun p hp => ⟨h.mono p hp, h.frame_allocated hp⟩

/-- In `k'` the run at `dst` holds what the run at `src` held in `k`. -/
def RunCopy (k k' : Kernel) (src dst n : Nat) : Prop :=
  ∀ i < n, k'.pmm.Allocated (dst + i * 4096) ∧
    (k.pmm.Allocated (src + i * 4096) → k'.frame (dst + i * 4096) = k.frame (src + i * 4096))

variable {dst fuel pa vi : Nat} {grown : List (Nat × Nat)} {q : Copy VmaSet} {r : Copy (List Nat)}
  {regions : List ElfRegion} {v' : Vma} {vmas : VmaSet}

lemma RunCopy.widen (h : RunCopy k k' src dst n) (h0 : Kept k0 k) (h1 : Kept k' k'') :
    RunCopy k0 k'' src dst n := by
  intro i hi
  obtain ⟨hout, hsame⟩ := h i hi
  obtain ⟨hout', hframe⟩ := h1 _ hout
  refine ⟨hout', fun hsrc => ?_⟩
  obtain ⟨hsrc', hframe0⟩ := h0 _ hsrc
  rw [hframe, hsame hsrc', hframe0]

/-- A mapping of copied pages: the same addresses with the same permissions. -/
structure MappingCopy (k k' : Kernel) (m m' : Mapping) : Prop where
  va : m'.va = m.va
  pages : m'.pages = m.pages
  flags : m'.flags = m.flags
  run : RunCopy k k' m.pa m'.pa m.pages

lemma MappingCopy.widen (h0 : Kept k0 k) (h1 : Kept k' k'') {m m' : Mapping}
    (h : MappingCopy k k' m m') : MappingCopy k0 k'' m m' :=
  ⟨h.va, h.pages, h.flags, h.run.widen h0 h1⟩

lemma mappingCopies_widen (h0 : Kept k0 k) (h1 : Kept k' k'') {ms' : List Mapping}
    (h : List.Forall₂ (MappingCopy k k') ms ms') :
    List.Forall₂ (MappingCopy k0 k'') ms ms' :=
  h.imp fun _ _ hm => hm.widen h0 h1

/-- The pages that were copied, right after they were mapped. -/
lemma runCopy_of_takeCopy {k1 k3 : Kernel} {ok : Bool} (hal : k.pmmAllocatePages n = (pa, k1))
    (h0 : pa ≠ 0) (hmap : (k1.memcpyPages pa src n).mmuMapUserRange l0 va pa n flags = (ok, k3)) :
    RunCopy k k3 src pa n := by
  have hb := Kernel.BuildStep.takeCopy hal h0 hmap
  obtain ⟨⟨p, gs, -, rfl⟩, -⟩ := Kernel.pmmAllocatePages_cases hal
  obtain ⟨hs, -⟩ := Kernel.mmuMapUserRange_spec hmap
  intro i hi
  refine ⟨hb.taken _ (mem_pagesFrom.mpr ⟨i, hi, rfl⟩), fun _ => ?_⟩
  rw [hs.frame]
  funext off
  show (if pa ≤ pa + i * 4096 ∧ pa + i * 4096 < pa + n * 4096 then
    k.frame (pa + i * 4096 - pa + src) off else k.frame (pa + i * 4096) off) = _
  rw [if_pos (by omega), Nat.add_sub_cancel_left, add_comm src]

/-- The new pages may be listed in any order. -/
lemma Kernel.BuildStep.perm {ys : List Nat} {ok : Bool} (h : Kernel.BuildStep l0 xs ms ok k k')
    (hp : xs.Perm ys) :
    Kernel.BuildStep l0 ys ms ok k k' :=
  { h with
    took := h.took.perm hp
    frame := fun p hp' hx => h.frame p hp' (mt hp.mem_iff.mp hx) }

lemma buildStep_of_denied (hal : k.pmmAllocatePages n = (0, k')) :
    Kernel.BuildStep l0 [] [] true k k' := by
  obtain ⟨hs, ⟨-, hp⟩ | ⟨hne, -⟩⟩ := Kernel.pmmAllocatePages_cases hal
  · exact .of_pmm hs (.of_pmm hp)
  · exact absurd rfl hne

/-! ## The image -/

/-- The pages of a list of segments. -/
def regionPages (regions : List ElfRegion) : List Nat :=
  regions.flatMap fun r => pagesFrom r.phys r.pages

/-- **The segments** are copied one after the other, all of them if no allocation is refused. -/
lemma forkRegions_spec {r : Copy (List ElfRegion)} (h : forkRegions l0 k regions = r) :
    Kernel.BuildStep l0 (regionPages r.out) (r.out.map ElfRegion.mapping) r.mapped k r.k ∧
      (∀ g ∈ r.out, g.phys ≠ 0) ∧ (r.ok = true → List.Forall₂ (MappingCopy k r.k)
        (regions.map ElfRegion.mapping) (r.out.map ElfRegion.mapping)) := by
  subst h
  induction regions generalizing k with
  | nil => exact ⟨.refl l0 k, forall_mem_nil _, fun _ => .nil⟩
  | cons src rest ih =>
    rw [forkRegions]
    split
    · -- refused: the copy stops here
      rename_i k1 hal
      exact ⟨buildStep_of_denied hal, forall_mem_nil _, fun h => by cases h⟩
    rename_i dst k1 hne hal
    rcases hmap : (k1.memcpyPages dst src.phys src.pages).mmuMapUserRange l0 src.va dst src.pages
      (elfPflagsToPte src.flags) with ⟨m, k2⟩
    have hb := Kernel.BuildStep.takeCopy hal hne hmap
    obtain ⟨hb', hphys, hcopy⟩ := @ih k2
    refine ⟨(hb.trans hb').perm perm_append_comm, ?_, ?_⟩
    · exact forall_mem_cons.mpr ⟨hne, hphys⟩
    · intro hok
      refine .cons ⟨rfl, rfl, rfl, ?_⟩ (mappingCopies_widen hb.kept (.refl _) (hcopy hok))
      exact (runCopy_of_takeCopy hal hne hmap).widen (.refl k) hb'.kept

lemma pmmAllocatePages_zero (h : k.pmmAllocatePages 0 = (pa, k')) : pa = 0 := by
  unfold Kernel.pmmAllocatePages at h
  split at h
  · exact (congrArg Prod.fst h).symm
  · exact (congrArg Prod.fst h).symm

lemma forkRegions_pages (h : (forkRegions l0 k regions).ok = true) :
    regionPages (forkRegions l0 k regions).out = [] ↔ regions = [] := by
  cases regions with
  | nil => exact iff_of_true rfl rfl
  | cons src rest =>
    rw [forkRegions] at h ⊢
    split at h
    · cases h
    rename_i dst k1 hne hal
    refine iff_of_false (fun hnil => ?_) (cons_ne_nil _ _)
    have hzero : src.pages ≠ 0 := by
      intro h0
      rw [h0] at hal
      exact hne (pmmAllocatePages_zero hal)
    have hfirst : dst + 0 * 4096 ∈ pagesFrom dst src.pages :=
      mem_pagesFrom.mpr ⟨0, pos_of_ne_zero hzero, rfl⟩
    rcases hmap : (k1.memcpyPages dst src.phys src.pages).mmuMapUserRange l0 src.va dst src.pages
      (elfPflagsToPte src.flags) with ⟨m, k2⟩
    have hhead : pagesFrom dst src.pages = [] := (append_eq_nil_iff.mp hnil).1
    rw [hhead] at hfirst
    exact not_mem_nil hfirst

lemma forkImage_pages (h : ¬ (forkImage l0 k regions).ok = false) :
    regionPages (forkImage l0 k regions).out = [] ↔ regions = [] := by
  have h := Bool.eq_true_of_not_eq_false h
  by_cases hnil : regions = []
  · rw [forkImage, if_pos hnil]
    exact iff_of_true rfl hnil
  · rw [forkImage, if_neg hnil] at h ⊢
    exact forkRegions_pages h

/-! ## The grown stack -/

/-- The mappings of the grown pages that are recorded. -/
def grownMappings (grown : List (Nat × Nat)) : List Mapping :=
  (grown.filter fun g => g.2 ≠ 0).map grownMapping

lemma forkGrown_spec {r : Copy (List (Nat × Nat))} (h : forkGrown l0 k grown = r) :
    Kernel.BuildStep l0 (r.out.map Prod.snd) (r.out.map grownMapping) r.mapped k r.k ∧
      (∀ g ∈ r.out, g.2 ≠ 0) ∧ (r.ok = true → List.Forall₂ (MappingCopy k r.k)
        (grownMappings grown) (r.out.map grownMapping)) := by
  subst h
  induction grown generalizing k with
  | nil => exact ⟨.refl l0 k, forall_mem_nil _, fun _ => .nil⟩
  | cons g rest ih =>
    obtain ⟨va, src⟩ := g
    rw [forkGrown]
    split
    · -- a null record is skipped
      rename_i h0
      have hskip : grownMappings ((va, src) :: rest) = grownMappings rest := by
        simp [grownMappings, h0]
      rw [hskip]
      exact ih
    rename_i h0
    have hkeep : grownMappings ((va, src) :: rest) = grownMapping (va, src) :: grownMappings rest := by
      simp [grownMappings, h0]
    rw [hkeep, Kernel.pmmAllocatePage_eq]
    split
    · rename_i k1 hal
      exact ⟨buildStep_of_denied hal, forall_mem_nil _, fun h => by cases h⟩
    rename_i dst k1 hne hal
    rcases hmap : (k1.memcpyPages dst src 1).mmuMapUserRange l0 va dst 1 stackFlags with ⟨m, k2⟩
    have hb := Kernel.BuildStep.takeCopy hal hne hmap
    obtain ⟨hb', hphys, hcopy⟩ := @ih k2
    refine ⟨(hb.trans hb').perm perm_append_comm, ?_, ?_⟩
    · exact forall_mem_cons.mpr ⟨hne, hphys⟩
    · intro hok
      refine .cons ⟨rfl, rfl, rfl, ?_⟩ (mappingCopies_widen hb.kept (.refl _) (hcopy hok))
      exact (runCopy_of_takeCopy hal hne hmap).widen (.refl k) hb'.kept

/-! ## The regions -/

/-- One mapping for each recorded page of an array that starts at `va`. -/
def pageMappings (flags : Pte) (va : Nat) : List Nat → List Mapping
  | [] => []
  | p :: ps =>
    if p = 0 then pageMappings flags (va + 4096) ps
    else ⟨va, p, 1, flags⟩ :: pageMappings flags (va + 4096) ps

/-- The mappings a region stands for. -/
def Vma.mappings (v : Vma) : List Mapping :=
  pageMappings (mmuProtToFlags v.prot) v.start (v.pages.take v.npages)

/-- The mappings a set stands for. -/
def setMappings (set : VmaSet) : List Mapping := set.flatMap Vma.mappings

/-- The same entries are empty. -/
abbrev SameHoles : List Nat → List Nat → Prop := List.Forall₂ fun p p' => p' = 0 ↔ p = 0

lemma privatizePages_cons {k1 k2 : Kernel} {rest : List Nat} {m : Bool} (h0 : src ≠ 0)
    (hal : k.pmmAllocatePages 1 = (dst, k1)) (hne : dst ≠ 0)
    (hmap : (k1.memcpyPages dst src 1).mmuMapUserRange l0 va dst 1 flags = (m, k2))
    (hr : privatizePages l0 flags k2 (va + 4096) rest = r) :
    privatizePages l0 flags k va (src :: rest) = ⟨dst :: r.out, r.ok, m && r.mapped, r.k⟩ := by
  rw [privatizePages, if_neg h0, Kernel.pmmAllocatePage_eq, hal]
  split
  · rename_i heq
    cases heq
    exact absurd rfl hne
  · rename_i heq
    cases heq
    rw [hmap, ← hr]

/-- **The pages of one region**: some are copies and the rest are the old ones, which are none when no
allocation is refused. -/
lemma privatizePages_spec {pages : List Nat} (h : privatizePages l0 flags k va pages = r) :
    r.out.length = pages.length ∧ ∃ new old ms, Kernel.BuildStep l0 new ms r.mapped k r.k ∧
      r.out.filter (· ≠ 0) = new.reverse ++ old ∧ old.Sublist (pages.filter (· ≠ 0)) ∧
      (r.ok = true → old = [] ∧ ms = pageMappings flags va r.out ∧ SameHoles pages r.out ∧
        List.Forall₂ (MappingCopy k r.k) (pageMappings flags va pages) ms) := by
  subst h
  induction pages generalizing k va with
  | nil => exact ⟨rfl, [], [], [], .refl l0 k, rfl, .slnil, fun _ => ⟨rfl, rfl, .nil, .nil⟩⟩
  | cons src rest ih =>
    by_cases h0 : src = 0
    · rw [privatizePages, if_pos h0]
      obtain ⟨hlen, new, old, ms, hb, hout, hold, hall⟩ := @ih k (va + 4096)
      refine ⟨congrArg Nat.succ hlen, new, old, ms, hb, ?_, ?_, fun h => ?_⟩
      · simpa using hout
      · simpa [h0] using hold
      obtain ⟨hnil, rfl, hholes, hcopy⟩ := hall h
      refine ⟨hnil, rfl, .cons (by simp [h0]) hholes, ?_⟩
      simpa [pageMappings, h0] using hcopy
    rcases hal : k.pmmAllocatePages 1 with ⟨dst, k1⟩
    by_cases hne : dst = 0
    · -- refused: the old entries stay from here on
      subst hne
      rw [privatizePages, if_neg h0, Kernel.pmmAllocatePage_eq, hal]
      exact ⟨rfl, [], _, [], buildStep_of_denied hal, rfl, List.Sublist.refl _, fun h => by cases h⟩
    rcases hmap : (k1.memcpyPages dst src 1).mmuMapUserRange l0 va dst 1 flags with ⟨m, k2⟩
    rw [privatizePages_cons h0 hal hne hmap rfl]
    have hb := Kernel.BuildStep.takeCopy hal hne hmap
    obtain ⟨hlen, new, old, ms, hb', hout, hold, hall⟩ := @ih k2 (va + 4096)
    refine ⟨congrArg Nat.succ hlen, new ++ [dst], old, _, hb.trans hb', ?_, ?_, fun h => ?_⟩
    · rw [filter_cons_of_pos (by simpa using hne), hout, reverse_append]
      rfl
    · rw [filter_cons_of_pos (by simpa using h0)]
      exact hold.cons _
    obtain ⟨hnil, rfl, hholes, hcopy⟩ := hall h
    have hrun := (runCopy_of_takeCopy hal hne hmap).widen (.refl k) hb'.kept
    rw [pageMappings, pageMappings, if_neg h0, if_neg hne]
    exact ⟨hnil, rfl, .cons (by simp [h0, hne]) hholes,
      .cons ⟨rfl, rfl, rfl, hrun⟩ (mappingCopies_widen hb.kept (.refl _) hcopy)⟩

/-- The entry with its first pages replaced. -/
lemma VmaOk.replace (hv : VmaOk v) {out : List Nat} (hlen : out.length = (v.pages.take v.npages).length) :
    (out ++ v.pages.drop v.npages).take v.npages = out ∧
      VmaOk { v with pages := out ++ v.pages.drop v.npages } := by
  rw [length_take, min_eq_left hv.array_len] at hlen
  refine ⟨by rw [← hlen]; exact take_left, hv.start_aligned, hv.end_aligned, hv.nonempty, ?_⟩
  show v.npages ≤ (out ++ v.pages.drop v.npages).length
  rw [length_append, hlen]
  exact Nat.le_add_right _ _

lemma AllOk.replace (h : AllOk set) (hv : VmaOk v) : AllOk (set.set vi v) := by
  intro x hx
  rcases mem_or_eq_of_mem_set hx with hx | rfl
  · exact h x hx
  · exact hv

/-- `v'` is a copy of the record `v`: the same range and protection, and pages where `v` has pages. -/
structure VmaCopy (v v' : Vma) : Prop where
  start : v'.start = v.start
  end_ : v'.end_ = v.end_
  prot : v'.prot = v.prot
  flags : v'.flags = v.flags
  holes : SameHoles (v.pages.take v.npages) (v'.pages.take v'.npages)

lemma VmaCopy.npages (h : VmaCopy v v') : v'.npages = v.npages := by
  rw [Vma.npages, Vma.npages, h.start, h.end_]

lemma VmaCopy.ok (h : VmaCopy v v') (hv : VmaOk v) : VmaOk v' := by
  refine ⟨h.start ▸ hv.start_aligned, h.end_ ▸ hv.end_aligned, ?_, ?_⟩
  · rw [h.start, h.end_]
    exact hv.nonempty
  have hlen := h.holes.length_eq
  have hfit := hv.array_len
  have hn := h.npages
  simp only [length_take] at hlen
  omega

lemma privatizeVmas_cons {cv : Vma} (hcv : set[vi]? = some cv)
    (hr : privatizePages l0 (mmuProtToFlags cv.prot) k cv.start (cv.pages.take cv.npages) = r)
    (hok : r.ok = true) (hq : privatizeVmas l0 fuel (vi + 1)
      (set.set vi { cv with pages := r.out ++ cv.pages.drop cv.npages }) r.k = q) :
    privatizeVmas l0 (fuel + 1) vi set k = ⟨q.out, q.ok, r.mapped && q.mapped, q.k⟩ := by
  rw [privatizeVmas, hcv]
  dsimp only
  rw [hr, if_pos hok, hq]

/-- **The regions**, when no allocation is refused: from entry `vi` on every entry is replaced by a
private copy. -/
lemma privatizeVmas_spec (hok : AllOk set) (hq : privatizeVmas l0 fuel vi set k = q)
    (h : q.ok = true) :
    ∃ new, q.out = set.take vi ++ new ∧ List.Forall₂ VmaCopy (set.drop vi) new ∧
      Kernel.BuildStep l0 (vmaSlots new) (setMappings new) q.mapped k q.k ∧
      List.Forall₂ (MappingCopy k q.k) (setMappings (set.drop vi)) (setMappings new) := by
  subst hq
  induction fuel generalizing vi set k with
  | zero => cases h
  | succ fuel ih =>
    cases hcv : set[vi]? with
    | none =>
      have hlen : set.length ≤ vi := getElem?_eq_none_iff.mp hcv
      have hend : privatizeVmas l0 (fuel + 1) vi set k = ⟨set, true, true, k⟩ := by
        rw [privatizeVmas, hcv]
      rw [hend, take_of_length_le hlen, drop_eq_nil_of_le hlen]
      exact ⟨[], (append_nil _).symm, .nil, .refl l0 k, .nil⟩
    | some cv =>
      obtain ⟨hlt, hget⟩ := List.getElem?_eq_some_iff.mp hcv
      have hmem : cv ∈ set := hget ▸ getElem_mem hlt
      have hr : (privatizePages l0 (mmuProtToFlags cv.prot) k cv.start
          (cv.pages.take cv.npages)).ok = true := by
        by_contra hne
        rw [privatizeVmas, hcv] at h
        dsimp only at h
        rw [if_neg hne] at h
        cases h
      rw [privatizeVmas_cons hcv rfl hr rfl] at h ⊢
      generalize hpages : privatizePages l0 (mmuProtToFlags cv.prot) k cv.start
        (cv.pages.take cv.npages) = r at h hr ⊢
      obtain ⟨hlen, pages, old, ms, hb, hnew, -, hall⟩ := privatizePages_spec hpages
      obtain ⟨rfl, rfl, hholes, hcopy⟩ := hall hr
      obtain ⟨htake, hcv'⟩ := (hok cv hmem).replace hlen
      -- the entry with its new pages
      obtain ⟨cv', heq⟩ : ∃ x : Vma, x = { cv with pages := r.out ++ cv.pages.drop cv.npages } :=
        ⟨_, rfl⟩
      have htake : cv'.pages.take cv'.npages = r.out := by
        rw [heq]
        exact htake
      rw [← heq] at h hcv' ⊢
      have hvc : VmaCopy cv cv' := by
        refine ⟨?_, ?_, ?_, ?_, htake.symm ▸ hholes⟩ <;> rw [heq]
      obtain ⟨new, hout, hcopies, hb', hcopy'⟩ := ih (hok.replace hcv') h
      have hdrop : set.drop vi = cv :: set.drop (vi + 1) := by
        rw [drop_eq_getElem_cons hlt, hget]
      have htakes : (set.set vi cv').take (vi + 1) = set.take vi ++ [cv'] := by
        rw [take_add_one, take_set_of_le (le_refl vi), getElem?_set_self hlt]
        rfl
      have hdrops : (set.set vi cv').drop (vi + 1) = set.drop (vi + 1) :=
        drop_set_of_lt (Nat.lt_succ_self vi)
      rw [hdrops] at hcopies hcopy'
      have hmaps : cv'.mappings = pageMappings (mmuProtToFlags cv.prot) cv.start r.out := by
        rw [Vma.mappings, htake, hvc.prot, hvc.start]
      have hslots : cv'.slots = pages.reverse := by rw [Vma.slots, htake, hnew, append_nil]
      rw [← hmaps] at hb hcopy
      refine ⟨cv' :: new, ?_, ?_, ?_, ?_⟩
      · rw [hout, htakes, append_assoc]
        rfl
      · rw [hdrop]
        exact .cons hvc hcopies
      · refine (hb.trans hb').perm (perm_append_comm.trans ?_)
        rw [vmaSlots_cons, hslots]
        exact (reverse_perm pages).symm.append_right _
      · rw [hdrop]
        exact rel_append (mappingCopies_widen (.refl k) hb'.kept hcopy)
          (mappingCopies_widen hb.kept (.refl _) hcopy')

lemma insertBack_first {es : VmaSet} (h : ∀ e ∈ es, e.start ≤ v.start) : insertBack v es = v :: es := by
  cases es with
  | nil => rfl
  | cons e es => rw [insertBack, if_neg (not_lt.mpr (h e mem_cons_self))]

/-- In a sorted set an entry with the largest start goes to the end. -/
lemma vmaInsertSorted_last (h : ∀ e ∈ set, e.start ≤ v.start) : vmaInsertSorted set v = set ++ [v] := by
  rw [vmaInsertSorted, insertBack_first fun e he => h e (mem_reverse.mp he),
    reverse_cons, reverse_reverse]

/-- **A clone** records what the source records, with the same pages; that of a sorted set keeps its
order. -/
lemma vmaClone_some {dst src : VmaSet} (h : vmaClone k dst src = (some set, k')) :
    HeapStep k k' ∧ set.Perm (dst ++ src.map Vma.trim) ∧
      (((dst ++ src).map Vma.start).Pairwise (· ≤ ·) → set = dst ++ src.map Vma.trim) := by
  induction src generalizing k dst with
  | nil =>
    cases h
    rw [map_nil, append_nil]
    exact ⟨.refl _, .refl _, fun _ => rfl⟩
  | cons v vs ih =>
    rw [vmaClone] at h
    split at h
    · cases h
    rename_i k1 hk
    obtain ⟨hheap, hp, hsort⟩ := @ih k1 (vmaInsertSorted dst v.trim) h
    refine ⟨(heapStep_kmalloc hk).trans hheap, hp.trans ?_, fun hs => ?_⟩
    · refine ((vmaInsertSorted_perm dst v.trim).append_right _).trans ?_
      exact perm_middle.symm
    have hlast : vmaInsertSorted dst v.trim = dst ++ [v.trim] := vmaInsertSorted_last fun e he =>
        (pairwise_append.mp (pairwise_map.mp hs)).2.2 e he v mem_cons_self
    rw [hlast] at hsort
    rw [hsort (by simpa [Vma.trim] using hs), map_cons, append_assoc]
    rfl

/-- The records of a clone have the shape of those they were copied from. -/
lemma AllOk.trim (hok : AllOk vmas) (hp : set.Perm (vmas.map Vma.trim)) : AllOk set := by
  intro x hx
  obtain ⟨v, hv, rfl⟩ := mem_map.mp (hp.mem_iff.mp hx)
  exact vmaOk_trim (hok v hv)

/-- **The copied regions**: private pages at the addresses of the parent's. -/
lemma forkVmas_spec (hok : AllOk vmas) {r : Copy VmaSet} (hr : forkVmas l0 k vmas = r)
    (h : r.ok = true) :
    ∃ src, src.Perm (vmas.map Vma.trim) ∧
      (vmas.Pairwise (fun a b => a.start ≤ b.start) → src = vmas.map Vma.trim) ∧
      List.Forall₂ VmaCopy src r.out ∧
      Kernel.BuildStep l0 (vmaSlots r.out) (setMappings r.out) r.mapped k r.k ∧
      List.Forall₂ (MappingCopy k r.k) (setMappings src) (setMappings r.out) := by
  unfold forkVmas at hr
  split at hr
  · rename_i hnil
    subst hnil hr
    exact ⟨[], .refl _, fun _ => rfl, .nil, .refl l0 k, .nil⟩
  split at hr
  · subst hr
    cases h
  rename_i set k1 hclone
  obtain ⟨hheap, hperm, hsort⟩ := vmaClone_some hclone
  obtain ⟨new, hout, hcopies, hb, hcopy⟩ := privatizeVmas_spec (hok.trim hperm) hr h
  have hb0 : Kernel.BuildStep l0 [] [] true k k1 := .of_pmm hheap.1 hheap.2
  rw [hout]
  refine ⟨set, hperm, fun hs => hsort (pairwise_map.mpr hs), hcopies, ?_,
    mappingCopies_widen hb0.kept (.refl _) hcopy⟩
  have hboth := hb0.trans hb
  rw [append_nil, nil_append, Bool.true_and] at hboth
  exact hboth

/-! ## The child -/

/-- The mappings of a task's image. -/
def imageMappings (cfg : MemCfg) (regions : List ElfRegion) : List Mapping :=
  if regions = [] then [textMapping cfg] else regions.map ElfRegion.mapping

/-- The mappings a task's records stand for, in the order in which `sched_fork` makes them. -/
def Task.recordMappings (cfg : MemCfg) (t : Task) : List Mapping :=
  imageMappings cfg t.regions ++ ([stackMapping t.ustackPhys] ++ (grownMappings t.grown ++
    ([tlsMapping t.tlsPhys] ++ setMappings t.vmas)))

lemma forkImage_spec {r : Copy (List ElfRegion)} (h : forkImage l0 k regions = r) :
    Kernel.BuildStep l0 (regionPages r.out)
        (if regions = [] then [textMapping k.pmm.cfg] else r.out.map ElfRegion.mapping) r.mapped k
        r.k ∧
      (∀ g ∈ r.out, g.phys ≠ 0) ∧ (r.ok = true → List.Forall₂ (MappingCopy k r.k)
        (regions.map ElfRegion.mapping) (r.out.map ElfRegion.mapping)) := by
  by_cases hnil : regions = []
  · subst hnil
    rcases hmap : k.mmuMapUserRange l0 userTextBase memStart k.pmm.cfg.textPages textFlags with ⟨m, k1⟩
    rw [forkImage, if_pos rfl, hmap] at h
    subst h
    exact ⟨.map hmap, forall_mem_nil _, fun _ => .nil⟩
  · rw [forkImage, if_neg hnil] at h
    rw [if_neg hnil]
    exact forkRegions_spec h

/-- A child whose regions were copied completely. -/
structure Forked (k : Kernel) (parent child : Task) (r : ForkResult) : Prop where
  spawned : Spawned k child r.k
  user : child.ttbr0 ≠ 0
  regions_nil : parent.regions = [] ↔ child.regions = []
  phys_ne : (∀ g ∈ child.regions, g.phys ≠ 0) ∧ child.ustackPhys ≠ 0 ∧ child.tlsPhys ≠ 0 ∧
    ∀ g ∈ child.grown, g.2 ≠ 0
  leaf : ∃ ms, List.Forall₂ Mapping.Cut (child.recordMappings k.pmm.cfg) ms ∧
    (r.mapped = true → ms = child.recordMappings k.pmm.cfg) ∧ ∀ a, r.k.leaf child.l0 a = overlay ms a
  image : List.Forall₂ (MappingCopy k r.k) (parent.regions.map ElfRegion.mapping)
    (child.regions.map ElfRegion.mapping)
  stack : MappingCopy k r.k (stackMapping parent.ustackPhys) (stackMapping child.ustackPhys)
  grown : r.grownAll = true → List.Forall₂ (MappingCopy k r.k) (grownMappings parent.grown)
    (grownMappings child.grown)
  vmas : ∃ src, src.Perm (parent.vmas.map Vma.trim) ∧
    (parent.vmas.Pairwise (fun a b => a.start ≤ b.start) → src = parent.vmas.map Vma.trim) ∧
    List.Forall₂ VmaCopy src child.vmas ∧
    List.Forall₂ (MappingCopy k r.k) (setMappings src) (setMappings child.vmas)
  window : ∀ p, p % 4096 = 0 → ¬ r.k.pmm.Allocated p → r.k.frame p = k.frame p

lemma grownMappings_of_ne (h : ∀ g ∈ grown, g.2 ≠ 0) :
    grownMappings grown = grown.map grownMapping := by
  rw [grownMappings, filter_eq_self.mpr]
  intro g hg
  simpa using h g hg

lemma childTask_userPages {pid kstack ttbr0 ustack tls : Nat} (hu : ustack ≠ 0) (ht : tls ≠ 0)
    (hr : ∀ r ∈ regions, r.phys ≠ 0) (hg : ∀ g ∈ grown, g.2 ≠ 0) :
    (childTask parent pid kstack ttbr0 ustack tls regions grown vmas).userPages =
      pagesFrom ustack userStackPages ++ (regionPages regions ++ (grown.map Prod.snd ++
        (vmaSlots vmas ++ pagesFrom tls 1))) := by
  have himg : (childTask parent pid kstack ttbr0 ustack tls regions grown vmas).imagePages =
      regionPages regions := by
    exact flatMap_congr fun r hrm => runPages_of_ne _ (hr r hrm)
  have hgr : (childTask parent pid kstack ttbr0 ustack tls regions grown vmas).grownPages =
      grown.map Prod.snd := by
    refine filter_eq_self.mpr fun x hx => ?_
    obtain ⟨g, hgm, rfl⟩ := mem_map.mp hx
    simpa using hg g hgm
  rw [Task.userPages, himg, hgr]
  show Task.runPages ustack userStackPages ++ (_ ++ (_ ++ (_ ++ Task.runPages tls 1))) = _
  rw [runPages_of_ne _ hu, runPages_of_ne _ ht]
  rfl

lemma fdTableClone_heap {fds b : Bool} (h : fdTableClone k fds = (b, k')) : HeapStep k k' := by
  unfold fdTableClone at h
  split at h
  · exact heapStep_kmalloc h
  · cases h
    exact .refl _

/-- The first half of a fork went through. -/
structure ForkSpace.Copied (k : Kernel) (parent : Task) (sp : ForkSpace) (k' : Kernel) : Prop where
  built : Built k sp.l0 (pagesFrom sp.tls 1 ++ (sp.grown.map Prod.snd ++
      (pagesFrom sp.ustack userStackPages ++ (regionPages sp.regions ++
        pagesFrom sp.kstack taskStackPages))))
    (imageMappings k.pmm.cfg sp.regions ++ ([stackMapping sp.ustack] ++ (grownMappings sp.grown ++
      [tlsMapping sp.tls]))) sp.mapped k'
  phys_ne : (∀ g ∈ sp.regions, g.phys ≠ 0) ∧ sp.ustack ≠ 0 ∧ sp.tls ≠ 0 ∧ ∀ g ∈ sp.grown, g.2 ≠ 0
  kstack_ne : sp.kstack ≠ 0
  regions_nil : parent.regions = [] ↔ sp.regions = []
  image : List.Forall₂ (MappingCopy k k') (parent.regions.map ElfRegion.mapping)
    (sp.regions.map ElfRegion.mapping)
  stack : MappingCopy k k' (stackMapping parent.ustackPhys) (stackMapping sp.ustack)
  grown : sp.grownAll = true → List.Forall₂ (MappingCopy k k') (grownMappings parent.grown)
    (grownMappings sp.grown)

/-- **The first half of a fork**: an exit, which forgets nothing if the refused request came early
enough, or a child without regions. -/
lemma forkSpace_cases {r : Option ForkSpace} (h : forkSpace k parent = (r, k')) :
    (r = none ∧ ∃ left, GaveUp k k' left ∧ (left = [] ↔ (forkRefusal k parent).Harmless parent)) ∨
      ∃ sp, r = some sp ∧ sp.Copied k parent k' ∧ forkRefusal k parent = .later := by
  unfold forkSpace at h
  unfold forkRefusal
  rcases hk : k.kmalloc with ⟨_ | _, k0⟩
  · rw [hk] at h
    cases h
    exact .inl ⟨rfl, [], (heapStep_kmalloc hk).gaveUp, iff_of_true rfl trivial⟩
  have hheap := heapStep_kmalloc hk
  rw [hk] at h
  dsimp only at h ⊢
  rcases hspace : k0.newSpace taskStackPages with ⟨_ | ⟨kstack, l0⟩, k1⟩
  · rw [hspace] at h
    cases h
    exact .inl ⟨rfl, [], newSpace_none hheap hspace, iff_of_true rfl trivial⟩
  obtain ⟨hkstack, hb1⟩ := newSpace_some hheap hspace
  rw [hspace] at h
  dsimp only at h ⊢
  have hpages := @forkImage_pages k1 l0 parent.regions
  generalize himg : forkImage l0 k1 parent.regions = img at h hpages ⊢
  obtain ⟨himg, hrphys, hrcopy⟩ := forkImage_spec himg
  have hb2 := hb1.build himg
  by_cases himgok : img.ok = false
  · -- the image could not be copied: everything goes back
    rw [if_pos himgok] at h ⊢
    cases h
    refine .inl ⟨rfl, [], ?_, iff_of_true rfl trivial⟩
    simp only [mmuFreeUserTables_eq, pmmFreePages_eq, pmmFreeList_pmmFreeList, tablePages_pmmFreeList]
    refine hb2.undo (.refl _) ?_
    simp only [regionPages]
    grind
  have hpages := hpages himgok
  have hrcopy := hrcopy (Bool.eq_true_of_not_eq_false himgok)
  rw [if_neg himgok] at h ⊢
  rcases hal3 : img.k.pmmAllocatePages userStackPages with ⟨ustack, k3⟩
  by_cases hustack : ustack = 0
  · -- no user stack: the image stays
    subst hustack
    rw [hal3] at h
    cases h
    have hq3 := gaveUp_of_denied hal3
    refine .inl ⟨rfl, regionPages img.out, ?_, hpages⟩
    simp only [mmuFreeUserTables_eq, pmmFreePages_eq, pmmFreeList_pmmFreeList,
      hb2.tablePages_quiet hq3.1]
    exact hb2.giveUp hq3 _ _ (by grind)
  simp only [hal3] at h ⊢
  rcases hmap4 : (k3.memcpyPages ustack parent.ustackPhys userStackPages).mmuMapUserRange l0
      stackInitialLo ustack userStackPages stackFlags with ⟨m1, k4⟩
  rw [hmap4] at h
  have hs4 := Kernel.BuildStep.takeCopy hal3 hustack hmap4
  have hrun4 := runCopy_of_takeCopy hal3 hustack hmap4
  have hb4 := hb2.build hs4
  dsimp only at h ⊢
  generalize hgr : forkGrown l0 k4 parent.grown = grown at h ⊢
  obtain ⟨hgr, hgphys, hgcopy⟩ := forkGrown_spec hgr
  have hb5 := hb4.build hgr
  rw [Kernel.pmmAllocatePage_eq] at h ⊢
  rcases hal6 : grown.k.pmmAllocatePages 1 with ⟨tls, k6⟩
  by_cases htls : tls = 0
  · -- no TLS page: the image and the grown copies stay
    subst htls
    rw [hal6] at h
    cases h
    have hq6 := gaveUp_of_denied hal6
    refine .inl ⟨rfl, grown.out.map Prod.snd ++ regionPages img.out, ?_, ?_⟩
    · simp only [mmuFreeUserTables_eq, pmmFreePages_eq, pmmFreeList_pmmFreeList,
        tablePages_pmmFreeList, hb5.tablePages_quiet hq6.1]
      exact hb5.giveUp hq6 _ _ (by grind)
    · rw [append_eq_nil_iff, hpages, map_eq_nil_iff, ← length_eq_zero_iff, and_comm]
      rfl
  simp only [hal6] at h ⊢
  rcases hmap7 : (k6.memsetPages tls 1).mmuMapUserRange l0 userTlsBase tls 1 stackFlags with ⟨m2, k7⟩
  rw [hmap7] at h
  cases h
  have hs7 := Kernel.BuildStep.takeZero hal6 htls hmap7
  have hb7 := hb5.build hs7
  have hnil : parent.regions = [] ↔ img.out = [] := by
    have hlen := hrcopy.length_eq
    simp only [length_map] at hlen
    rw [← length_eq_zero_iff, ← length_eq_zero_iff, hlen]
  have hk5 : Kept grown.k k7 := hs7.kept
  have hk6 : Kept k4 k7 := hgr.kept.trans hk5
  refine .inr ⟨_, rfl, ⟨?_, ⟨hrphys, hustack, htls, hgphys⟩, hkstack, hnil,
    mappingCopies_widen hb1.kept (hs4.kept.trans hk6) hrcopy,
    ⟨rfl, rfl, rfl, hrun4.widen hb2.kept hk6⟩, ?_⟩, by simp [htls]⟩
  · have hmaps : (if parent.regions = [] then [textMapping k1.pmm.cfg] else
        img.out.map ElfRegion.mapping) = imageMappings k.pmm.cfg img.out := by
      rw [imageMappings, hb1.cfg]
      simp only [hnil]
    rw [hmaps] at hb7
    simpa only [grownMappings_of_ne hgphys, stackMapping, tlsMapping, nil_append,
      append_assoc, Bool.true_and] using hb7
  · intro hall
    rw [grownMappings_of_ne hgphys]
    exact mappingCopies_widen hb4.kept hk5 (hgcopy hall)

/-- **Fork**: as long as the copy of the regions is complete, either nothing is left of the attempt
that anyone could see, or there is a child with pages of its own. -/
lemma schedFork_cases {r : ForkResult} (hok : AllOk parent.vmas) (h : schedFork k parent = r)
    (hcopied : r.copied = true) :
    (r.child = none ∧ QuietStep k r.k) ∨ ∃ child, r.child = some child ∧ Forked k parent child r := by
  unfold schedFork at h
  split at h
  · rename_i k1 hspace
    subst h
    obtain ⟨-, left, hg, -⟩ | ⟨sp, hsp, -⟩ := forkSpace_cases hspace
    · exact .inl ⟨rfl, hg.1⟩
    · cases hsp
  rename_i sp k1 hspace
  obtain ⟨hnone, -⟩ | ⟨sp', hsp, hc, -⟩ := forkSpace_cases hspace
  · cases hnone
  cases hsp
  dsimp only at h
  generalize hvmas : forkVmas sp.l0 k1 parent.vmas = vmas at h
  -- the copy of the regions went through, whatever comes of the descriptors
  have hvok : vmas.ok = true := by
    split at h
    · subst h
      exact hcopied
    · subst h
      exact hcopied
  obtain ⟨src, hsrc, hsorted, hvcopies, hv, hvcopy⟩ := forkVmas_spec hok hvmas hvok
  have hb := hc.built.build hv
  have hq : QuietStep vmas.k (schedAsidAlloc { vmas.k with nextPid := vmas.k.nextPid + 1 }).2 :=
    (quiet_nextPid _ _).trans (quiet_asidAlloc _)
  split at h
  · -- no descriptors
    rename_i k2 hfd
    subst h
    have hq2 := hq.trans (fdTableClone_heap hfd).quiet
    refine .inl ⟨rfl, ?_⟩
    simp only [mmuFreeUserTables_eq, pmmFreePages_eq, pmmFreeList_pmmFreeList, hb.tablePages_quiet hq2]
    exact hb.abort hq2 _ (vmaSlots vmas.out ++ (pagesFrom sp.tls 1 ++ (sp.grown.map Prod.snd ++
      regionPages sp.regions))) (by grind)
  rename_i k2 hfd
  have hq2 := hq.trans (fdTableClone_heap hfd).quiet
  subst h
  have hasid : (schedAsidAlloc { vmas.k with nextPid := vmas.k.nextPid + 1 }).1 = vmas.k.nextAsid :=
    (schedAsidAlloc_spec _).1
  rw [hasid]
  obtain ⟨hr, hu, ht, hg⟩ := hc.phys_ne
  have hspawn := hb.spawned hq2 (t := childTask parent vmas.k.nextPid sp.kstack
    (ttbrPack sp.l0 vmas.k.nextAsid) sp.ustack sp.tls sp.regions sp.grown vmas.out) rfl (by
      rw [childTask_userPages hu ht hr hg]
      show List.Perm _ (Task.runPages sp.kstack taskStackPages ++ _)
      rw [runPages_of_ne _ hc.kstack_ne]
      grind)
  have hlater : Kept k1 k2 := hv.kept.trans hq2.kept
  obtain ⟨ms, hcut, hall, hleaf⟩ := hb.leaf
  refine .inr ⟨_, rfl, ⟨hspawn.2, ?_, hc.regions_nil, hc.phys_ne, ⟨ms, ?_, ?_, ?_⟩,
    mappingCopies_widen (.refl k) hlater hc.image, hc.stack.widen (.refl k) hlater,
    fun hgr => mappingCopies_widen (.refl k) hlater (hc.grown hgr), ⟨src, hsrc, hsorted, hvcopies,
      mappingCopies_widen hc.built.kept hq2.kept hvcopy⟩, ?_⟩⟩
  · exact ttbrPack_ne_zero hb.taken_l0.bounds.2.2 hb.taken_l0.ne_zero
  · simp only [append_assoc] at hcut
    exact hcut
  · intro hm
    have heq := hall.mp hm
    simp only [append_assoc] at heq
    exact heq
  · intro a
    rw [hspawn.1, Kernel.leaf, hq2.tables sp.l0 hb.taken_l0]
    exact hleaf a
  intro p hp hfree
  have hframe : k2.frame = vmas.k.frame := by
    obtain ⟨-, next, tlb, -, -, heq⟩ :=
      schedAsidAlloc_spec { vmas.k with nextPid := vmas.k.nextPid + 1 }
    rw [(fdTableClone_heap hfd).frame, heq]
  rw [hframe]
  exact hb.frame p hp fun hx => hfree (hq2.mono (hb.taken p hx))

lemma Forked.allOk {child : Task} {r : ForkResult} (h : Forked k parent child r)
    (hok : AllOk parent.vmas) : AllOk child.vmas := by
  obtain ⟨src, hperm, -, hcopy, -⟩ := h.vmas
  intro v hv
  obtain ⟨w, hw, hc⟩ := exists_left_of_forall₂ hcopy hv
  exact hc.ok (hok.trim hperm w hw)

end FermiOs
