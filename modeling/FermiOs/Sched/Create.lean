import FermiOs.Sched.Space

/-!
# Creating tasks

`sched_create_task` and `sched_create_kernel_task` of `sched/sched.c`. A user task gets a kernel stack,
a page table with the window on the kernel's text, a user stack and a TLS page; every failing exit
gives back what was taken. The entry function enters only through whether it lies in the window.
-/

namespace FermiOs
open Library List
variable {k k' : Kernel} {r : Option Task}

section
variable (k : Kernel)

/-- `fd_table_create` and the three `fd_open_ex("/dev/console")`: a missing table is tolerated, and
so is each open that fails. -/
def consoleFds : Bool × Kernel :=
  match k.kmalloc with
  | (false, k) => (false, k)
  | (true, k) => (true, k.kmalloc.2.kmalloc.2.kmalloc.2)

/-- The end of `sched_create_task`: pid, ASID, record and descriptors. -/
def finishCreate (kstack l0 ustack tls : Nat) : Task × Kernel :=
  let r := schedAsidAlloc { k with nextPid := k.nextPid + 1 }
  let f := consoleFds r.2
  (newTask k.nextPid kstack (ttbrPack l0 r.1) ustack tls f.1, f.2)

/-- `sched_create_task`; `entryOk` tells whether the entry lies in `[__text_start, __user_text_end)`. -/
def schedCreateTask (entryOk : Bool) : Option Task × Kernel :=
  match k.kmalloc with
  | (false, k) => (none, k)
  | (true, k) =>
    match k.newSpace taskStackPages with
    | (none, k) => (none, k)
    | (some (kstack, l0), k) =>
      if entryOk = false then
        (none, (k.pmmFreePage l0).pmmFreePages kstack taskStackPages)
      else
        match k.mmuMapUserRange l0 userTextBase memStart k.pmm.cfg.textPages textFlags with
        | (_, k) =>
          match k.pmmAllocatePages userStackPages with
          | (0, k) => (none, (k.mmuFreeUserTables l0).pmmFreePages kstack taskStackPages)
          | (ustack, k) =>
            match (k.memsetPages ustack userStackPages).mmuMapUserRange l0 stackInitialLo
                ustack userStackPages stackFlags with
            | (_, k) =>
              match k.pmmAllocatePage with
              | (0, k) =>
                (none, ((k.pmmFreePages ustack userStackPages).mmuFreeUserTables
                  l0).pmmFreePages kstack taskStackPages)
              | (tls, k) =>
                match (k.memsetPages tls 1).mmuMapUserRange l0 userTlsBase tls 1
                    stackFlags with
                | (_, k) =>
                  let r := finishCreate k kstack l0 ustack tls
                  (some r.1, r.2)

/-- `sched_create_kernel_task`. -/
def schedCreateKernelTask : Option Task × Kernel :=
  match k.kmalloc with
  | (false, k) => (none, k)
  | (true, k) =>
    match k.pmmAllocatePages taskStackPages with
    | (0, k) => (none, k)
    | (kstack, k) =>
      let k := k.memsetPages kstack taskStackPages
      (some { newTask k.nextPid kstack 0 0 0 false with brkBase := 0, brkCur := 0 },
        { k with nextPid := k.nextPid + 1 })

lemma consoleFds_heap : HeapStep k (consoleFds k).2 := by
  have hstep : ∀ k : Kernel, HeapStep k k.kmalloc.2 := fun k =>
    heapStep_kmalloc (Prod.mk.eta (p := k.kmalloc)).symm
  unfold consoleFds
  split
  · rename_i k1 hk
    exact heapStep_kmalloc hk
  · rename_i k1 hk
    exact (heapStep_kmalloc hk).trans (((hstep _).trans (hstep _)).trans (hstep _))

lemma finishCreate_quiet (kstack l0 ustack tls : Nat) :
    QuietStep k (finishCreate k kstack l0 ustack tls).2 :=
  ((quiet_nextPid k _).trans (quiet_asidAlloc _)).trans (consoleFds_heap _).quiet

lemma finishCreate_task (kstack l0 ustack tls : Nat) : ∃ fds, (finishCreate k kstack l0 ustack tls).1 =
      newTask k.nextPid kstack (ttbrPack l0 k.nextAsid) ustack tls fds := by
  refine ⟨(consoleFds (schedAsidAlloc { k with nextPid := k.nextPid + 1 }).2).1, ?_⟩
  rw [finishCreate, (schedAsidAlloc_spec _).1]

end

lemma runPages_of_ne {pa : Nat} (n : Nat) (h : pa ≠ 0) : Task.runPages pa n = pagesFrom pa n := if_neg h

lemma newTask_userPages {pid kstack ttbr0 ustack tls : Nat} {fds : Bool} (hu : ustack ≠ 0)
    (ht : tls ≠ 0) : (newTask pid kstack ttbr0 ustack tls fds).userPages =
      pagesFrom ustack userStackPages ++ pagesFrom tls 1 := by
  simp [Task.userPages, Task.imagePages, Task.grownPages, newTask, vmaSlots,
    runPages_of_ne _ hu, runPages_of_ne _ ht]

/-- What `sched_create_task` leaves: nothing new, or a task with a fresh address space that maps the
window, the stack and the TLS page. -/
lemma schedCreateTask_cases {entryOk : Bool} (h : schedCreateTask k entryOk = (r, k')) :
    (r = none ∧ QuietStep k k') ∨ ∃ t, r = some t ∧ Spawned k t k' ∧
      (∃ pid kstack ttbr0 ustack tls fds, t = newTask pid kstack ttbr0 ustack tls fds ∧
        ttbr0 ≠ 0 ∧ ustack ≠ 0 ∧ tls ≠ 0) ∧
      ∃ ms, Forall₂ Mapping.Cut
          [textMapping k.pmm.cfg, stackMapping t.ustackPhys, tlsMapping t.tlsPhys] ms ∧
        ∀ a, k'.leaf t.l0 a = overlay ms a := by
  unfold schedCreateTask at h
  split at h
  · rename_i k0 hk
    cases h
    exact .inl ⟨rfl, (heapStep_kmalloc hk).quiet⟩
  rename_i k0 hk
  have hheap := heapStep_kmalloc hk
  split at h
  · rename_i k1 hspace
    cases h
    exact .inl ⟨rfl, (newSpace_none hheap hspace).1⟩
  rename_i kstack l0 k1 hspace
  obtain ⟨hkstack, hb1⟩ := newSpace_some hheap hspace
  split at h
  · -- the entry is refused: the table is still a single page
    cases h
    refine .inl ⟨rfl, ?_⟩
    have heq : (k1.pmmFreePage l0).pmmFreePages kstack taskStackPages =
        k1.pmmFreeList ([l0] ++ pagesFrom kstack taskStackPages) := by
      simp only [Kernel.pmmFreePages, Kernel.pmmFreePage, Kernel.pmmFreeList, Pmm.freeList_append,
        Pmm.freeList]
    rw [heq]
    refine (hb1.giveUp (.refl k1) _ (k1.tables l0).pages ?_).1
    simp only [Kernel.tablePages, cons_append, nil_append]
    exact (perm_append_comm).cons l0
  split at h
  rename_i b2 k2 hmap2
  have hb2 := hb1.build (Kernel.BuildStep.map hmap2)
  split at h
  · -- no user stack
    rename_i k3 hal3
    cases h
    have hq3 := gaveUp_of_denied hal3
    refine .inl ⟨rfl, ?_⟩
    simp only [mmuFreeUserTables_eq, pmmFreePages_eq, pmmFreeList_pmmFreeList,
      hb2.tablePages_quiet hq3.1]
    exact (hb2.undo hq3 (.refl _)).1
  rename_i ustack k3 hustack hal3
  split at h
  rename_i b4 k4 hmap4
  have hb4 := hb2.build (Kernel.BuildStep.takeZero hal3 hustack hmap4)
  split at h
  · -- no TLS page
    rename_i k5 hal5
    cases h
    rw [Kernel.pmmAllocatePage_eq] at hal5
    have hq5 := gaveUp_of_denied hal5
    refine .inl ⟨rfl, ?_⟩
    simp only [mmuFreeUserTables_eq, pmmFreePages_eq, pmmFreeList_pmmFreeList,
      tablePages_pmmFreeList, hb4.tablePages_quiet hq5.1]
    exact (hb4.undo hq5 (by grind)).1
  rename_i tls k5 htls hal5
  rw [Kernel.pmmAllocatePage_eq] at hal5
  split at h
  rename_i b6 k6 hmap6
  cases h
  have hb6 := hb4.build (Kernel.BuildStep.takeZero hal5 htls hmap6)
  obtain ⟨fds, ht⟩ := finishCreate_task k6 kstack l0 ustack tls
  have hq := finishCreate_quiet k6 kstack l0 ustack tls
  obtain ⟨ms, hcut, -, hleaf⟩ := hb6.leaf
  have hspawn := hb6.spawned hq (t := (finishCreate k6 kstack l0 ustack tls).1)
    (by rw [ht]; rfl) ?_
  · refine .inr ⟨_, rfl, hspawn.2, ⟨_, _, _, _, _, _, ht, ?_, hustack, htls⟩, ms, ?_, ?_⟩
    · exact ttbrPack_ne_zero hb6.taken_l0.bounds.2.2 hb6.taken_l0.ne_zero
    · rw [ht]
      rw [hb1.cfg] at hcut
      exact hcut
    · intro a
      rw [hspawn.1, Kernel.leaf, hq.tables l0 hb6.taken_l0]
      exact hleaf a
  rw [ht, newTask_userPages hustack htls, show (newTask k6.nextPid kstack
    (ttbrPack l0 k6.nextAsid) ustack tls fds).stackPhys = kstack from rfl,
    runPages_of_ne _ hkstack]
  grind

/-- A kernel task owns its stack and maps nothing. -/
lemma schedCreateKernelTask_cases (h : schedCreateKernelTask k = (r, k')) :
    (r = none ∧ QuietStep k k') ∨ ∃ t, r = some t ∧ Spawned k t k' ∧ t.ttbr0 = 0 ∧
      t.userPages = [] ∧ t.vmas = [] := by
  unfold schedCreateKernelTask at h
  split at h
  · rename_i k0 hk
    cases h
    exact .inl ⟨rfl, (heapStep_kmalloc hk).quiet⟩
  rename_i k0 hk
  have hq := (heapStep_kmalloc hk).quiet
  split at h
  · rename_i k1 hal
    cases h
    exact .inl ⟨rfl, hq.trans (gaveUp_of_denied hal).1⟩
  rename_i kstack k1 hne hal
  cases h
  obtain ⟨⟨p, gs, hc, rfl⟩, ⟨hz, -⟩ | ⟨-, ht⟩⟩ := Kernel.pmmAllocatePages_cases hal
  · exact absurd hz hne
  have hrun := Kernel.run_aligned fun x hx => (ht.iff x).mpr (.inl hx)
  refine .inr ⟨_, rfl, ⟨fun F hF => ?_, fun l hl => hq.tables l hl, fun q hq' => ?_,
    hq.tlb, hc.trans hq.cfg, hq.asid, fun hne => absurd rfl hne⟩, rfl, rfl, rfl⟩
  · have hown := Kernel.Owns.take (hq.owns F hF) ht
    have hpages : taskPages k0 (newTask k0.nextPid kstack 0 0 0 false) =
        pagesFrom kstack taskStackPages := by
      simp only [taskPages, newTask, Task.userPages, Task.imagePages, Task.grownPages, vmaSlots,
        flatMap_nil, map_nil, filter_nil, append_nil, if_true]
      exact (append_nil _).trans (if_neg hne)
    rw [← hpages] at hown
    exact hown
  · have hq0 := hq.mono hq'
    refine Eq.trans ?_ (hq.frame q hq')
    exact Kernel.memsetPages_frame _ hrun q hq0.bounds.1 fun hx => ht.fresh q hx hq0

end FermiOs
