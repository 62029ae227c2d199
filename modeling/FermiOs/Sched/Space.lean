import FermiOs.Mm.AddressSpace
import FermiOs.Sched.Task

/-!
# Address spaces of tasks

What a task owns and records, how ASIDs are handed out, and how a dead task is taken apart
(`sched_free_task`).

Every operation of the later modules falls into one of a few kinds, each described by a structure.
A `QuietStep` changes nothing any task can see. A `LocalStep` replaces one task by another and leaves
the others alone. `Built` is a new address space, from the state before its first allocation. The
ledger of owned pages, the isolation of tables and the TLB are tracked through these four structures
only.
-/

namespace FermiOs
open Library List Function
variable {F xs ys : List Nat} {k' : Kernel} {l0 pa : Nat} {ms : List Mapping} {ok : Bool}
  {tlb : Nat → Nat → Pte → Bool}

/-! ## What a task owns and records -/

/-- Every page recorded for a task or used by its page table. -/
def taskPages (k : Kernel) (t : Task) : List Nat :=
  Task.runPages t.stackPhys taskStackPages ++ (t.userPages ++
    if t.ttbr0 = 0 then [] else k.tablePages t.l0)

/-- The mapping of one image segment. -/
def ElfRegion.mapping (r : ElfRegion) : Mapping := ⟨r.va, r.phys, r.pages, elfPflagsToPte r.flags⟩

/-- The window on the kernel's `.text` and `.rodata`. -/
def textMapping (cfg : MemCfg) : Mapping := ⟨userTextBase, memStart, cfg.textPages, textFlags⟩

/-- The eagerly mapped user stack. -/
def stackMapping (phys : Nat) : Mapping := ⟨stackInitialLo, phys, userStackPages, stackFlags⟩

/-- One page of demand-grown stack. -/
def grownMapping (g : Nat × Nat) : Mapping := ⟨g.1, g.2, 1, stackFlags⟩

/-- The TLS page. -/
def tlsMapping (phys : Nat) : Mapping := ⟨userTlsBase, phys, 1, stackFlags⟩

/-- The mappings of private pages a task records outside its regions of mapped memory. -/
def Task.privateMappings (t : Task) : List Mapping :=
  t.regions.map ElfRegion.mapping ++ (stackMapping t.ustackPhys :: t.grown.map grownMapping ++
    [tlsMapping t.tlsPhys])

/-! ## ASIDs -/

/-- `sched_asid_alloc`: a wrapped counter flushes the TLB and starts again at `1`. -/
def schedAsidAlloc (k : Kernel) : Nat × Kernel :=
  let next := (k.nextAsid + 1) % 2 ^ 16
  if next = 0 then (k.nextAsid, { k.tlbiVmalle1 with nextAsid := 1 })
  else (k.nextAsid, { k with nextAsid := next })

/-- The counter stays a nonzero 16-bit value. -/
def AsidOk (k : Kernel) : Prop := 0 < k.nextAsid ∧ k.nextAsid < 2 ^ 16

section
variable (k : Kernel)
include k

lemma schedAsidAlloc_spec : (schedAsidAlloc k).1 = k.nextAsid ∧ ∃ next tlb,
      (∀ a v w, tlb a v w = true → k.tlb a v w = true) ∧ (0 < next ∧ next < 2 ^ 16) ∧
      (schedAsidAlloc k).2 = { k with nextAsid := next, tlb := tlb } := by
  unfold schedAsidAlloc
  dsimp only
  split_ifs with hne
  · refine ⟨rfl, 1, fun _ _ _ => false, ?_, by decide, rfl⟩
    intro a v w h
    cases h
  · exact ⟨rfl, _, k.tlb, fun _ _ _ h => h, ⟨pos_of_ne_zero hne, Nat.mod_lt _ (by decide)⟩, rfl⟩

/-! ## Sequences of frees -/

@[simp] lemma pmmFreeList_pmmFreeList (xs ys : List Nat) :
    (k.pmmFreeList xs).pmmFreeList ys = k.pmmFreeList (xs ++ ys) := by
  simp only [Kernel.pmmFreeList, Pmm.freeList_append]

@[simp] lemma pmmFreePages_eq (pa n : Nat) : k.pmmFreePages pa n = k.pmmFreeList (pagesFrom pa n) := rfl

@[simp] lemma mmuFreeUserTables_eq (l0 : Nat) :
    k.mmuFreeUserTables l0 = k.pmmFreeList (k.tablePages l0) := rfl

@[simp] lemma tablePages_pmmFreeList (xs : List Nat) (l0 : Nat) :
    (k.pmmFreeList xs).tablePages l0 = k.tablePages l0 := rfl

end

/-- Lists of pages with the same pages in them, the same number of times. -/
lemma perm_of_coe_eq (h : (xs : Multiset Nat) = ys) : xs.Perm ys :=
  Multiset.coe_eq_coe.mp h

/-! ## Kinds of steps -/

/-- A step no task notices: it may take pages for the kernel heap, and whatever else it takes it has
given back. -/
structure QuietStep (k k' : Kernel) : Prop where
  owns : ∀ F, k.Owns F → k'.Owns F
  tables : ∀ l, k.pmm.Allocated l → k'.tables l = k.tables l
  frame : ∀ p, k.pmm.Allocated p → k'.frame p = k.frame p
  tlb : ∀ a v w, k'.tlb a v w = true → k.tlb a v w = true
  cfg : k'.pmm.cfg = k.pmm.cfg
  asid : AsidOk k → AsidOk k'

/-- A step of task `t` that leaves it as `t'`: it accounts for the pages of the task, and the other
address spaces stay as they are. -/
structure LocalStep (k : Kernel) (t : Task) (k' : Kernel) (t' : Task) : Prop where
  owns : ∀ F, k.Owns (taskPages k t ++ F) → k'.Owns (taskPages k' t' ++ F)
  tables : ∀ l, k.pmm.Allocated l → l ≠ t.l0 → k'.tables l = k.tables l
  tlb : ∀ a v w, k'.tlb a v w = true → k.tlb a v w = true
  cfg : k'.pmm.cfg = k.pmm.cfg
  asid : AsidOk k → AsidOk k'

/-- From `k` on a new address space rooted at `l0` has been built, with the pages `xs` and the
mappings `ms`. -/
structure Built (k : Kernel) (l0 : Nat) (xs : List Nat) (ms : List Mapping) (ok : Bool)
    (k' : Kernel) : Prop where
  took : Kernel.Grown k k' (k'.tablePages l0 ++ xs)
  tables : ∀ l, l ≠ l0 → k'.tables l = k.tables l
  frame : ∀ p, p % 4096 = 0 → p ∉ xs → k'.frame p = k.frame p
  leaf : ∃ ms', Forall₂ Mapping.Cut ms ms' ∧ (ok = true ↔ ms' = ms) ∧
    ∀ a, k'.leaf l0 a = overlay ms' a
  tlb : k'.tlb = k.tlb
  cfg : k'.pmm.cfg = k.pmm.cfg
  nextPid : k'.nextPid = k.nextPid
  nextAsid : k'.nextAsid = k.nextAsid

lemma HeapStep.quiet {k : Kernel} (h : HeapStep k k') : QuietStep k k' := by
  have hown : ∀ F, k.Owns F → k'.Owns F := fun F hF => h.owns hF
  obtain ⟨⟨p, gs, hc, rfl⟩, -⟩ := h
  exact ⟨hown, fun _ _ => rfl, fun _ _ => rfl, fun _ _ _ h => h, hc, fun h => h⟩

lemma QuietStep.mono {k : Kernel} (h : QuietStep k k') {x : Nat} (hx : k.pmm.Allocated x) :
    k'.pmm.Allocated x := by
  have hone : k.Owns [x] := ⟨nodup_singleton x, fun y hy => mem_singleton.mp hy ▸ hx⟩
  exact (h.owns [x] hone).2 x (mem_singleton_self x)

lemma QuietStep.refl (k : Kernel) : QuietStep k k :=
  ⟨fun _ h => h, fun _ _ => rfl, fun _ _ => rfl, fun _ _ _ h => h, rfl, fun h => h⟩

lemma QuietStep.trans {k k'' : Kernel} (h : QuietStep k k') (h' : QuietStep k' k'') : QuietStep k k'' :=
  ⟨fun F hF => h'.owns F (h.owns F hF), fun l hl => (h'.tables l (h.mono hl)).trans (h.tables l hl),
    fun p hp => (h'.frame p (h.mono hp)).trans (h.frame p hp),
    fun a v w hw => h.tlb a v w (h'.tlb a v w hw), h'.cfg.trans h.cfg,
    fun ha => h'.asid (h.asid ha)⟩

variable {k1 : Kernel} {n : Nat} {t t' : Task}

/-- Nobody can see that there was an attempt, apart from the pages `rest`, which stay taken. -/
def GaveUp (k k' : Kernel) (rest : List Nat) : Prop := QuietStep k k' ∧ Kernel.Grown k k' rest

lemma GaveUp.refl (k : Kernel) : GaveUp k k [] := ⟨.refl k, .refl k⟩

lemma HeapStep.gaveUp {k : Kernel} (h : HeapStep k k') : GaveUp k k' [] := ⟨h.quiet, h.2⟩

/-- An allocation that returned nothing. -/
lemma gaveUp_of_denied {k : Kernel} (h : k.pmmAllocatePages n = (0, k')) : GaveUp k k' [] := by
  obtain ⟨⟨p, gs, hc, rfl⟩, ⟨-, hp⟩ | ⟨hne, -⟩⟩ := Kernel.pmmAllocatePages_cases h
  · have hp : p = k.pmm := hp
    subst hp
    exact ⟨⟨fun _ h => h, fun _ _ => rfl, fun _ _ => rfl, fun _ _ _ h => h, rfl, fun h => h⟩, .of_pmm rfl⟩
  · exact absurd rfl hne

namespace Built
variable {k k'' : Kernel}

section
variable (h : Built k l0 xs ms ok k')
include h

lemma owns (F : List Nat) (hF : k.Owns F) : k'.Owns (k'.tablePages l0 ++ (xs ++ F)) := by
  rw [← append_assoc]
  exact h.took.owns hF

lemma fresh : ∀ x ∈ xs, ¬ k.pmm.Allocated x :=
  fun _ hx => h.took.fresh (mem_append_right _ hx)

lemma fresh_l0 : ¬ k.pmm.Allocated l0 :=
  h.took.fresh (mem_append_left _ mem_cons_self)

lemma taken : ∀ x ∈ xs, k'.pmm.Allocated x :=
  fun _ hx => h.took.taken (mem_append_right _ hx)

lemma taken_l0 : k'.pmm.Allocated l0 :=
  h.took.taken (mem_append_left _ mem_cons_self)

lemma mono (x : Nat) (hx : k.pmm.Allocated x) : k'.pmm.Allocated x :=
  h.took.mono hx

end

/-- The first page of the table, after a run of pages was taken and cleared. -/
lemma begin (hh : HeapStep k k1) (hal : k1.pmmAllocatePages n = (pa, k')) (hpa : pa ≠ 0)
    (hl0 : (k'.memsetPages pa n).mmuCreateUserTables = (l0, k'')) (h0 : l0 ≠ 0) :
    Built k l0 (pagesFrom pa n) [] true k'' := by
  have hg := Kernel.pmmAllocatePages_grown hal hpa
  have hg' := Kernel.mmuCreateUserTables_grown hl0 h0
  have htook := (hh.2.trans hg).trans hg'
  rw [append_nil] at htook
  have hrun := Kernel.run_aligned fun x hx => hg.taken hx
  obtain ⟨⟨p0, gs0, hc0, rfl⟩, -⟩ := hh
  obtain ⟨⟨p, gs, hc, rfl⟩, -⟩ := Kernel.pmmAllocatePages_cases hal
  obtain ⟨hz, -⟩ | ⟨-, -, p', gs', hc', rfl⟩ := Kernel.mmuCreateUserTables_cases hl0
  · exact absurd hz h0
  refine ⟨?_, ?_, ?_, ⟨[], .nil, by simp, ?_⟩, rfl, ?_, rfl, rfl⟩
  · have htp : ∀ q : Kernel, q.tables = update k.tables l0 .empty → q.tablePages l0 = [l0] := by
      intro q hq
      simp [Kernel.tablePages, hq, PageTable.empty, PageTable.pages]
    rw [htp _ rfl]
    exact htook
  · intro l hl
    exact update_of_ne hl _ _
  · exact fun q hq hx => Kernel.memsetPages_frame _ hrun q hq hx
  · intro a
    simp [Kernel.leaf, overlay]
  · exact hc'.trans (hc.trans hc0)

variable (h : Built k l0 xs ms ok k')
include h

/-- Construction goes on. -/
lemma build {ns : List Mapping} {ok' : Bool} (h' : Kernel.BuildStep l0 ys ns ok' k' k'') :
    Built k l0 (ys ++ xs) (ms ++ ns) (ok && ok') k'' where
  took := by
    obtain ⟨ts, hpages, hg⟩ := h'.took
    refine (h.took.trans hg).perm ?_
    rw [Kernel.tablePages, Kernel.tablePages, hpages, cons_append, cons_append]
    exact perm_middle.trans (List.Perm.cons l0 (by grind))
  tables := fun l hl => (h'.tables l hl).trans (h.tables l hl)
  frame := by
    intro p hp hx
    have hx := not_or.mp (mt mem_append.mpr hx)
    exact (h'.frame p hp hx.1).trans (h.frame p hp hx.2)
  leaf := by
    obtain ⟨ms', hcut, hok, hleaf⟩ := h.leaf
    obtain ⟨ns', hcut', hok', hleaf'⟩ := h'.leaf
    refine ⟨ms' ++ ns', rel_append hcut hcut', cut_append_iff hcut hok hok', ?_⟩
    intro a
    rw [hleaf', hleaf, overlay_append]
  tlb := h'.tlb.trans h.tlb
  cfg := h'.cfg.trans h.cfg
  nextPid := h'.nextPid.trans h.nextPid
  nextAsid := h'.nextAsid.trans h.nextAsid

lemma frame_allocated {p : Nat} (hp : k.pmm.Allocated p) : k'.frame p = k.frame p :=
  h.frame p hp.bounds.1 fun hx => h.fresh p hx hp

lemma tables_allocated {l : Nat} (hl : k.pmm.Allocated l) : k'.tables l = k.tables l :=
  h.tables l fun he => h.fresh_l0 (he ▸ hl)

lemma tablePages_quiet (hq : QuietStep k' k'') : k''.tablePages l0 = k'.tablePages l0 := by
  rw [Kernel.tablePages, Kernel.tablePages, hq.tables l0 h.taken_l0]

/-- Giving up: some of what was taken is freed, the rest is forgotten. -/
lemma abort (hq : QuietStep k' k'') (zs rest : List Nat)
    (hp : (k'.tablePages l0 ++ xs).Perm (zs ++ rest)) : QuietStep k (k''.pmmFreeList zs) := by
  refine ⟨?_, fun l hl => ?_, fun p hp => ?_, ?_, ?_, ?_⟩
  · intro F hF
    have hall : k'.Owns ((k'.tablePages l0 ++ xs) ++ F) := by
      rw [append_assoc]
      exact h.owns F hF
    have hzs : k''.Owns (zs ++ (rest ++ F)) := by
      rw [← append_assoc]
      exact hq.owns _ (hall.perm (hp.append_right F))
    exact Ledger.drop_front (Kernel.Owns.free hzs)
  · exact (hq.tables l (h.mono l hl)).trans (h.tables_allocated hl)
  · exact (hq.frame p (h.mono p hp)).trans (h.frame_allocated hp)
  · intro a v w hw
    rw [← h.tlb]
    exact hq.tlb a v w hw
  · exact (Pmm.freeList_cfg _ _).trans (hq.cfg.trans h.cfg)
  intro ha
  have : AsidOk k' := by
    rw [AsidOk, h.nextAsid]
    exact ha
  exact hq.asid this

lemma giveUp (hg : GaveUp k' k'' []) (zs rest : List Nat)
    (hp : (k'.tablePages l0 ++ xs).Perm (zs ++ rest)) : GaveUp k (k''.pmmFreeList zs) rest :=
  ⟨h.abort hg.1 zs rest hp, ((h.took.trans hg.2).perm hp).free⟩

/-- Giving up, with everything freed. -/
lemma undo (hg : GaveUp k' k'' []) {zs : List Nat}
    (hp : (k'.tablePages l0 ++ xs).Perm zs) : GaveUp k (k''.pmmFreeList zs) [] := by
  rw [← append_nil zs] at hp
  exact h.giveUp hg zs [] hp

end Built

/-! ## Steps of one task -/

/-- The root of a user task's table is one of the pages it owns. -/
lemma root_allocated {k : Kernel} (hne : t.ttbr0 ≠ 0) (h : k.Owns (taskPages k t ++ F)) :
    k.pmm.Allocated t.l0 := by
  refine h.2 t.l0 (mem_append_left _ (mem_append_right _ (mem_append_right _ ?_)))
  rw [if_neg hne]
  exact mem_cons_self

/-- The table pages of a task behind a step that leaves its root alone. -/
lemma tables_of_root {k : Kernel} (h : k.Owns (taskPages k t ++ F))
    (htab : k.pmm.Allocated t.l0 → k'.tables t.l0 = k.tables t.l0) :
    (if t.ttbr0 = 0 then [] else k'.tablePages t.l0) = if t.ttbr0 = 0 then [] else k.tablePages t.l0 := by
  split_ifs with hne
  · rfl
  · rw [Kernel.tablePages, Kernel.tablePages, htab (root_allocated hne h)]

/-- Nothing but the kernel heap was used; the task may record its pages differently. -/
lemma QuietStep.local {k : Kernel} (hq : QuietStep k k') (httbr : t'.ttbr0 = t.ttbr0)
    (hstack : t'.stackPhys = t.stackPhys) (hp : t'.userPages.Perm t.userPages) :
    LocalStep k t k' t' := by
  refine ⟨fun F hF => ?_, fun l hl _ => hq.tables l hl, hq.tlb, hq.cfg, hq.asid⟩
  have hpages : (taskPages k t).Perm (taskPages k' t') := by
    rw [taskPages, taskPages, httbr, hstack, Task.l0, Task.l0, httbr]
    exact List.Perm.append_left _ (hp.symm.append (.of_eq (tables_of_root hF (hq.tables _)).symm))
  exact (hq.owns _ hF).perm (hpages.append_right F)

/-- The task's table grew: pages were taken for it and for the records of the task. -/
lemma Kernel.BuildStep.local {k : Kernel} (h : Kernel.BuildStep t.l0 xs ms ok k k1)
    (htlb : ∀ a v w, tlb a v w = true → k1.tlb a v w = true) (hne : t.ttbr0 ≠ 0)
    (httbr : t'.ttbr0 = t.ttbr0) (hstack : t'.stackPhys = t.stackPhys)
    (hp : t'.userPages.Perm (xs ++ t.userPages)) : LocalStep k t { k1 with tlb := tlb } t' := by
  refine ⟨fun F hF => ?_, fun l _ hl => h.tables l hl, fun a v w hw => ?_, h.cfg, ?_⟩
  · rw [taskPages, if_neg hne] at hF
    rw [taskPages, httbr, hstack, if_neg hne, Task.l0, httbr]
    -- the table's pages to the front, and back behind the new records
    have hfront : k.Owns (k.tablePages t.l0 ++
        (Task.runPages t.stackPhys taskStackPages ++ t.userPages ++ F)) := by
      exact hF.perm (by grind)
    refine Kernel.Owns.perm (k := { k1 with tlb := tlb }) (h.owns _ hfront) ?_
    rw [show ttbrBaddr t.ttbr0 = t.l0 from rfl,
      show ({ k1 with tlb := tlb } : Kernel).tablePages t.l0 = k1.tablePages t.l0 from rfl]
    grind
  · rw [← h.tlb]
    exact htlb a v w hw
  · intro ha
    rw [AsidOk, h.nextAsid]
    exact ha

/-- Descriptors were rewritten in place and pages were released; no page joined the table. -/
lemma local_edit {k : Kernel} (hs : Kernel.PmmStep k k1)
    (hown : ∀ F, k.Owns (t.userPages ++ F) → k1.Owns (t'.userPages ++ F)) {pt : PageTable}
    (hpt : pt.tabs = (k.tables t.l0).tabs) (htlb : ∀ a v w, tlb a v w = true → k.tlb a v w = true)
    (frame : Nat → Nat → UInt8) (httbr : t'.ttbr0 = t.ttbr0) (hstack : t'.stackPhys = t.stackPhys)
    (hk' : k' = { k1 with tables := update k1.tables t.l0 pt, tlb := tlb, frame := frame }) :
    LocalStep k t k' t' := by
  obtain ⟨p, gs, hc, rfl⟩ := hs
  have hl0 : t'.l0 = t.l0 := by rw [Task.l0, Task.l0, httbr]
  have htabs : k'.tablePages t.l0 = k.tablePages t.l0 := by
    rw [hk']
    simp only [Kernel.tablePages, update_self, PageTable.pages, hpt]
  have howns : ∀ F, ({ k with pmm := p, grants := gs } : Kernel).Owns F → k'.Owns F := by
    intro F hF
    rw [hk']
    exact hF
  refine ⟨fun F hF => ?_, fun l _ hl => ?_, ?_, ?_, ?_⟩
  · rw [taskPages] at hF
    rw [taskPages, httbr, hstack, hl0, htabs]
    have hfront : k.Owns (t.userPages ++ (Task.runPages t.stackPhys taskStackPages ++
        ((if t.ttbr0 = 0 then [] else k.tablePages t.l0) ++ F))) := by
      exact hF.perm (by grind)
    exact (howns _ (hown _ hfront)).perm (by grind)
  · rw [hk']
    exact update_of_ne hl _ _
  · rw [hk']
    exact htlb
  · rw [hk']
    exact hc
  · rw [hk']
    exact fun h => h

/-! ## New tasks -/

/-- A task was added: its pages are new, and nothing the others own or map has changed. -/
structure Spawned (k : Kernel) (t : Task) (k' : Kernel) : Prop where
  owns : ∀ F, k.Owns F → k'.Owns (taskPages k' t ++ F)
  tables : ∀ l, k.pmm.Allocated l → k'.tables l = k.tables l
  frame : ∀ p, k.pmm.Allocated p → k'.frame p = k.frame p
  tlb : ∀ a v w, k'.tlb a v w = true → k.tlb a v w = true
  cfg : k'.pmm.cfg = k.pmm.cfg
  asid : AsidOk k → AsidOk k'
  user : t.ttbr0 ≠ 0 → ¬ k.pmm.Allocated t.l0 ∧ (AsidOk k → t.asid = k.nextAsid)

lemma quiet_asidAlloc (k : Kernel) : QuietStep k (schedAsidAlloc k).2 := by
  obtain ⟨-, next, tlb, htlb, hok, heq⟩ := schedAsidAlloc_spec k
  rw [heq]
  exact ⟨fun _ h => h, fun _ _ => rfl, fun _ _ => rfl, htlb, rfl, fun _ => hok⟩

lemma quiet_nextPid (k : Kernel) (pid : Nat) : QuietStep k { k with nextPid := pid } :=
  ⟨fun _ h => h, fun _ _ => rfl, fun _ _ => rfl, fun _ _ _ h => h, rfl, fun h => h⟩

/-- A finished address space becomes a task whose records name what was taken. -/
lemma Built.spawned {k k2 : Kernel} (h : Built k l0 xs ms ok k1) (hq : QuietStep k1 k2)
    (ht : t.ttbr0 = ttbrPack l0 k1.nextAsid)
    (hp : xs.Perm (Task.runPages t.stackPhys taskStackPages ++ t.userPages)) :
    t.l0 = l0 ∧ Spawned k t k2 := by
  have hbounds := h.taken_l0.bounds
  have hl0 : t.l0 = l0 := by
    rw [Task.l0, ht]
    exact ttbrBaddr_pack hbounds.2.2
  have hne : t.ttbr0 ≠ 0 := by
    rw [ht]
    exact ttbrPack_ne_zero hbounds.2.2 h.taken_l0.ne_zero
  refine ⟨hl0, ?_, fun l hl => ?_, fun p hp => ?_, ?_, hq.cfg.trans h.cfg, ?_, ?_⟩
  · intro F hF
    rw [taskPages, if_neg hne, hl0, h.tablePages_quiet hq]
    refine (hq.owns _ (h.owns F hF)).perm ?_
    rw [← append_assoc, ← append_assoc]
    exact (perm_append_comm.trans (hp.append_right _)).append_right F
  · exact (hq.tables l (h.mono l hl)).trans (h.tables_allocated hl)
  · exact (hq.frame p (h.mono p hp)).trans (h.frame_allocated hp)
  · intro a v w hw
    rw [← h.tlb]
    exact hq.tlb a v w hw
  · intro ha
    exact hq.asid (by rw [AsidOk, h.nextAsid]; exact ha)
  · intro _
    refine ⟨hl0.symm ▸ h.fresh_l0, fun ha => ?_⟩
    rw [Task.asid, ht, h.nextAsid]
    exact ttbrAsid_pack ha.2

/-- What `sched_create_task`, `sched_fork` and `sys_exec` start with: a cleared run of pages and an
empty table, or nothing. -/
def Kernel.newSpace (k : Kernel) (n : Nat) : Option (Nat × Nat) × Kernel :=
  match k.pmmAllocatePages n with
  | (0, k) => (none, k)
  | (pa, k) =>
    match (k.memsetPages pa n).mmuCreateUserTables with
    | (0, k) => (none, k.pmmFreePages pa n)
    | (l0, k) => (some (pa, l0), k)

lemma newSpace_none {k : Kernel} (hh : HeapStep k k1) (h : k1.newSpace n = (none, k')) :
    GaveUp k k' [] := by
  suffices hrest : GaveUp k1 k' [] from
    ⟨hh.quiet.trans hrest.1, hh.2.trans hrest.2⟩
  unfold Kernel.newSpace at h
  split at h
  · rename_i k2 hal
    cases h
    exact gaveUp_of_denied hal
  rename_i pa k2 hpa hal
  split at h
  · -- no page for the table: the run goes back
    rename_i k3 hl0
    cases h
    have hg := Kernel.pmmAllocatePages_grown hal hpa
    obtain ⟨⟨p, gs, hc, rfl⟩, ⟨hz, -⟩ | ⟨-, ht⟩⟩ := Kernel.pmmAllocatePages_cases hal
    · exact absurd hz hpa
    obtain ⟨-, gs', rfl⟩ | ⟨hne, -⟩ := Kernel.mmuCreateUserTables_cases hl0
    · refine ⟨⟨fun F hF => ?_, fun _ _ => rfl, fun q hq => ?_, fun _ _ _ h => h, ?_, fun h => h⟩, ?_⟩
      · exact Kernel.Owns.free (Ledger.take hF ht)
      · have hrun := Kernel.run_aligned fun x hx => (ht.iff x).mpr (.inl hx)
        exact Kernel.memsetPages_frame _ hrun q hq.bounds.1 fun hx => ht.fresh q hx hq
      · exact (Pmm.freeList_cfg _ _).trans hc
      · rw [← append_nil (pagesFrom pa n)] at hg
        exact hg.free
    · exact absurd rfl hne
  · cases h

lemma newSpace_some {k : Kernel} (hh : HeapStep k k1) (h : k1.newSpace n = (some (pa, l0), k')) :
    pa ≠ 0 ∧ Built k l0 (pagesFrom pa n) [] true k' := by
  unfold Kernel.newSpace at h
  split at h
  · cases h
  rename_i pa' k2 hpa hal
  split at h
  · cases h
  · rename_i l0' k3 hne hl0
    cases h
    exact ⟨hpa, Built.begin hh hal hpa hl0 hne⟩

/-! ## Freeing a task -/

section
variable (k : Kernel) (t : Task)

/-- The end of `sched_free_task` and of `sys_exec`: the entries of the old ASID leave the TLB, then the
pages of the table are freed. -/
def dropTables : Kernel :=
  if t.ttbr0 = 0 then k
  else (if t.asid = 0 then k else k.tlbiAside1 (t.asid * 2 ^ 48)).mmuFreeUserTables t.l0

/-- `sched_free_task`. The descriptor table and the record itself go back to the kernel heap. -/
def schedFreeTask : Kernel :=
  let k := k.pmmFreeList (Task.runPages t.stackPhys taskStackPages)
  let k := k.pmmFreeList (Task.runPages t.ustackPhys userStackPages)
  let k := k.pmmFreeList t.imagePages
  let k := k.pmmFreeList t.grownPages
  let k := vmaDestroy k t.vmas
  let k := k.pmmFreeList (Task.runPages t.tlsPhys 1)
  dropTables k t

lemma dropTables_eq : ∃ tlb, (∀ a v w, tlb a v w = true →
        k.tlb a v w = true ∧ (t.ttbr0 ≠ 0 → t.asid ≠ 0 → a ≠ t.asid)) ∧
      dropTables k t = { k with
        pmm := k.pmm.freeList (if t.ttbr0 = 0 then [] else k.tablePages t.l0), tlb := tlb } := by
  unfold dropTables
  by_cases h0 : t.ttbr0 = 0
  · rw [if_pos h0, if_pos h0]
    exact ⟨k.tlb, fun a v w h => ⟨h, fun hne => absurd h0 hne⟩, rfl⟩
  rw [if_neg h0, if_neg h0]
  by_cases ha : t.asid = 0
  · rw [if_pos ha]
    exact ⟨k.tlb, fun a v w h => ⟨h, fun _ hne => absurd ha hne⟩, rfl⟩
  rw [if_neg ha]
  refine ⟨_, fun a v w h => ?_, rfl⟩
  simp only [Kernel.tlbiAside1, Bool.and_eq_true, Bool.not_eq_true', beq_eq_false_iff_ne] at h
  refine ⟨h.1, fun _ _ heq => h.2 ?_⟩
  -- the operand carries the ASID in its upper bits
  have hlt : t.asid < 2 ^ 16 := Nat.mod_lt _ (by decide)
  omega

/-- A dead task's pages are freed, all of them, and its entries leave the TLB. -/
lemma schedFreeTask_eq : ∃ tlb, (∀ a v w, tlb a v w = true →
        k.tlb a v w = true ∧ (t.ttbr0 ≠ 0 → t.asid ≠ 0 → a ≠ t.asid)) ∧
      schedFreeTask k t = { k with pmm := k.pmm.freeList (taskPages k t), tlb := tlb } := by
  unfold schedFreeTask vmaDestroy
  simp only [pmmFreeList_pmmFreeList, append_assoc]
  obtain ⟨tlb, htlb, heq⟩ := dropTables_eq (k.pmmFreeList (Task.runPages t.stackPhys taskStackPages ++
    (Task.runPages t.ustackPhys userStackPages ++ (t.imagePages ++ (t.grownPages ++
      (t.vmas.flatMap Vma.slots ++ Task.runPages t.tlsPhys 1)))))) t
  refine ⟨tlb, htlb, heq.trans ?_⟩
  simp only [Kernel.pmmFreeList, ← Pmm.freeList_append, taskPages, Task.userPages, vmaSlots,
    append_assoc]
  rfl

end

/-- Taking a task apart releases exactly what it owned. -/
lemma schedFreeTask_owns {k : Kernel} (h : k.Owns (taskPages k t ++ F)) :
    (schedFreeTask k t).Owns F := by
  obtain ⟨tlb, -, heq⟩ := schedFreeTask_eq k t
  rw [heq]
  exact Kernel.Owns.free h

end FermiOs
