import FermiOs.Syscall.Dispatch
import FermiOs.Syscall.Image
import FermiOs.Syscall.Mem

/-!
# Exec

`sys_exec` of `syscall/syscall.c` from the captured arguments on. A new address space is built beside
the old one; every failure up to the switch gives back what was taken and leaves the task alone. After
the switch the old regions, stack, TLS page, image and table are freed. The pages of the grown stack
are not: their count is set to zero.
-/

namespace FermiOs
open Library List

/-- What `fd_seek` and `fd_read` report about the file: its size and the bytes that were read. -/
structure ExecFile where
  size : Nat
  data : List UInt8

/-- The inputs of a call: the opened file, the captured argument strings without their terminators,
and the bytes the random number generator delivers. -/
structure ExecCall where
  file : Option ExecFile
  args : List (List UInt8)
  random : List UInt8

/-! ## The initial stack -/

/-- The captured strings, each with its terminator. -/
def argBlob (args : List (List UInt8)) : List UInt8 := args.flatMap (· ++ [0])

/-- `arg_offsets`, from the given offset on. -/
def argOffsets : Nat → List (List UInt8) → List Nat
  | _, [] => []
  | off, a :: as => off :: argOffsets (off + a.length + 1) as

section
variable (args : List (List UInt8))

/-- Addresses of the strings, of the 16 random bytes and of the stack pointer. -/
def stringsLo : Nat :=
  (userStackTop - (argBlob args).length - 16) / 16 * 16

@[inherit_doc stringsLo]
def randomVa : Nat := stringsLo args + (argBlob args).length

@[inherit_doc stringsLo]
def newSp : Nat :=
  stringsLo args - (8 + (args.length + 1) * 8 + 8 + 17 * 16 + 15) / 16 * 16

end

section
variable (img : ElfImage) (args : List (List UInt8))

/-- The auxiliary vector, padded to its reserved size. -/
def auxVector : List (Nat × Nat) :=
  let pairs := [(3, img.phdrVa), (4, img.phentsize), (5, img.phnum), (6, 4096), (7, 0), (8, 0),
      (9, img.entry), (11, 0), (12, 0), (13, 0), (14, 0), (16, 0), (17, 100), (23, 0),
      (25, randomVa args)] ++ (if args = [] then [] else [(31, stringsLo args)]) ++ [(0, 0)]
  pairs ++ replicate (17 - pairs.length) (0, 0)

/-- The words from the stack pointer up: count, argument pointers, two terminators, vector. -/
def stackWords : List Nat :=
  args.length :: (argOffsets 0 args).map (stringsLo args + ·) ++ [0, 0] ++
    (auxVector img args).flatMap fun p => [p.1, p.2]

end

/-- A 64-bit word in memory. -/
def wordBytes (n : Nat) : List UInt8 := (range 8).map (byteOf n)

/-- The stores into the new stack pages. -/
def execStack (k : Kernel) (stack : Nat) (img : ElfImage) (call : ExecCall) : Kernel :=
  let at' := fun va => stack + (va - stackInitialLo)
  let k := k.writeBytes (at' (stringsLo call.args)) (argBlob call.args)
  let k := k.writeBytes (at' (randomVa call.args)) (replicate 16 0)
  let k := k.writeBytes (at' (randomVa call.args)) (call.random.take 16)
  k.writeBytes (at' (newSp call.args)) ((stackWords img call.args).flatMap wordBytes)

/-! ## The call -/

/-- The new address space: its stack, table, image and TLS page. -/
structure ExecSpace where
  stack : Nat
  l0 : Nat
  img : ElfImage
  tls : Nat
  mapped : Bool

/-- `sys_exec` up to the switch. -/
def execSpace (k : Kernel) (data : List UInt8) : Option ExecSpace × Kernel :=
  match k.newSpace userStackPages with
  | (none, k) => (none, k)
  | (some (stack, l0), k) =>
    let e := elfLoad data l0 k
    match e.out with
    | none => (none, (e.k.mmuFreeUserTables l0).pmmFreePages stack userStackPages)
    | some img =>
      match e.k.mmuMapUserRange l0 stackInitialLo stack userStackPages stackFlags with
      | (m1, k) =>
        match k.pmmAllocatePage with
        | (0, k) =>
          (none, freeRegions ((k.mmuFreeUserTables l0).pmmFreePages stack userStackPages)
            img.regions)
        | (tls, k) =>
          match (k.memsetPages tls 1).mmuMapUserRange l0 userTlsBase tls 1 stackFlags with
          | (m2, k) => (some ⟨stack, l0, img, tls, e.mapped && m1 && m2⟩, k)

/-- The task after the switch. -/
def execTask (t : Task) (sp : ExecSpace) (ttbr0 : Nat) : Task :=
  { t with
    ttbr0 := ttbr0
    ustackPhys := sp.stack
    tlsPhys := sp.tls
    regions := sp.img.regions
    entry := sp.img.entry
    vmas := []
    brkBase := userBrkBase
    brkCur := userBrkBase
    grown := [] }

/-- What is freed of the old image. -/
def execFree (k : Kernel) (t : Task) : Kernel :=
  let k := k.pmmFreeList (Task.runPages t.ustackPhys userStackPages)
  let k := k.pmmFreeList (Task.runPages t.tlsPhys 1)
  dropTables (freeRegions k t.regions) t

/-- `sys_exec`. -/
def sysExec (k : Kernel) (t : Task) (call : ExecCall) : Int × Task × Kernel :=
  if t.fds = false then (-1, t, k)
  else if 1024 < (argBlob call.args).length then (-1, t, k)
  else if execStackFits call.args.length (argBlob call.args).length = false then (-1, t, k)
  else
    match call.file with
    | none => (-1, t, k)
    | some f =>
      -- the open file, then the buffer
      match k.kmalloc with
      | (false, k) => (-1, t, k)
      | (true, k) =>
        if f.size = 0 ∨ 2 ^ 20 < f.size then (-1, t, k)
        else
          match k.kmalloc with
          | (false, k) => (-1, t, k)
          | (true, k) =>
            if f.data.length ≠ f.size then (-1, t, k)
            else
              match execSpace k f.data with
              | (none, k) => (-1, t, k)
              | (some sp, k) =>
                let a := schedAsidAlloc k
                let k := execStack (vmaDestroy a.2 t.vmas) sp.stack sp.img call
                (0, execTask t sp (ttbrPack sp.l0 a.1), execFree k t)

/-! ## What a call does -/

/-- The new address space is complete. -/
structure ExecSpace.Ready (k : Kernel) (sp : ExecSpace) (k' : Kernel) : Prop where
  built : Built k sp.l0 (pagesFrom sp.tls 1 ++ (regionPages sp.img.regions ++
      pagesFrom sp.stack userStackPages))
    (sp.img.regions.map ElfRegion.mapping ++ ([stackMapping sp.stack] ++ [tlsMapping sp.tls]))
    sp.mapped k'
  regions_ne : sp.img.regions ≠ []
  phys_ne : (∀ r ∈ sp.img.regions, r.phys ≠ 0) ∧ sp.stack ≠ 0 ∧ sp.tls ≠ 0

variable {call : ExecCall} {k k' : Kernel} {sp : ExecSpace} {t : Task}

lemma execSpace_cases {k0 : Kernel} {data : List UInt8} {r : Option ExecSpace}
    (hh : HeapStep k k0) (h : execSpace k0 data = (r, k')) :
    (r = none ∧ QuietStep k k' ∧ Kernel.Grown k k' []) ∨ ∃ sp, r = some sp ∧ sp.Ready k k' := by
  unfold execSpace at h
  split at h
  · rename_i k1 hspace
    cases h
    exact .inl ⟨rfl, newSpace_none hh hspace⟩
  rename_i stack l0 k1 hspace
  obtain ⟨hstack, hb1⟩ := newSpace_some hh hspace
  dsimp only at h
  obtain ⟨k2, rs, hb, hrs, hcase⟩ := elfLoad_outcome data l0 k1
  have hphys : ∀ r ∈ rs, r.phys ≠ 0 := fun r hr => (hrs r hr).1
  have hb2 := hb1.build hb
  revert h hcase hb2
  generalize elfLoad data l0 k1 = e
  intro h hcase hb2
  cases hout : e.out with
  | some img =>
    rw [hout] at h hcase
    obtain ⟨hk, rfl, hne, -, -, hpages, -⟩ := hcase
    rw [hpages] at hb2
    dsimp only at h
    rw [hk] at h
    rcases hmap3 : k2.mmuMapUserRange l0 stackInitialLo stack userStackPages stackFlags with ⟨m1, k3⟩
    rw [hmap3] at h
    have hb3 := hb2.build (Kernel.BuildStep.map hmap3)
    rw [Kernel.pmmAllocatePage_eq] at h
    split at h
    · -- no TLS page
      rename_i k4 hal4
      cases h
      have hq4 := gaveUp_of_denied hal4
      refine .inl ⟨rfl, ?_⟩
      simp only [freeRegions_eq hphys, mmuFreeUserTables_eq, pmmFreePages_eq,
        pmmFreeList_pmmFreeList, hb3.tablePages_quiet hq4.1]
      refine hb3.undo hq4 ?_
      grind
    rename_i tls k4 htls hal4
    rcases hmap5 : (k4.memsetPages tls 1).mmuMapUserRange l0 userTlsBase tls 1 stackFlags with ⟨m2, k5⟩
    rw [hmap5] at h
    cases h
    have hb5 := hb3.build (Kernel.BuildStep.takeZero hal4 htls hmap5)
    refine .inr ⟨_, rfl, ⟨?_, hne, hphys, hstack, htls⟩⟩
    simpa only [stackMapping, tlsMapping, nil_append, append_assoc, Bool.true_and]
      using hb5
  | none =>
    -- the file was refused: what the loader kept are table pages
    rw [hout] at h hcase
    cases h
    refine .inl ⟨rfl, ?_⟩
    simp only [mmuFreeUserTables_eq, pmmFreePages_eq, hcase, pmmFreeList_pmmFreeList,
      tablePages_pmmFreeList]
    exact hb2.undo (.refl _) (by grind)

lemma execStack_eq (k : Kernel) (stack : Nat) (img : ElfImage) (call : ExecCall) :
    ∃ frame, execStack k stack img call = { k with frame := frame } := ⟨_, rfl⟩

/-- The old image goes, apart from the kernel stack and the pages of the grown stack. -/
lemma execFree_eq (k : Kernel) (t : Task) : ∃ tlb, (∀ a v w, tlb a v w = true →
        k.tlb a v w = true ∧ (t.ttbr0 ≠ 0 → t.asid ≠ 0 → a ≠ t.asid)) ∧
      execFree k t = { k with
        pmm := k.pmm.freeList (Task.runPages t.ustackPhys userStackPages ++
          (Task.runPages t.tlsPhys 1 ++ (t.imagePages ++
            if t.ttbr0 = 0 then [] else k.tablePages t.l0)))
        tlb := tlb } := by
  unfold execFree freeRegions
  simp only [pmmFreeList_pmmFreeList, append_assoc]
  obtain ⟨tlb, htlb, heq⟩ := dropTables_eq (k.pmmFreeList (Task.runPages t.ustackPhys userStackPages ++
    (Task.runPages t.tlsPhys 1 ++ t.regions.flatMap fun r => Task.runPages r.phys r.pages))) t
  refine ⟨tlb, htlb, heq.trans ?_⟩
  simp only [Kernel.pmmFreeList, ← Pmm.freeList_append, Task.imagePages, append_assoc]
  rfl

/-- A task that switched to a new image. -/
structure Execed (k : Kernel) (t : Task) (k' : Kernel) (t' : Task) : Prop where
  step : LocalStep k t k' t'
  user : t'.ttbr0 ≠ 0
  root : ¬ k.pmm.Allocated t'.l0
  asid : AsidOk k → t'.asid = k.nextAsid
  records : t'.vmas = [] ∧ t'.grown = [] ∧ t'.regions ≠ [] ∧ t'.pid = t.pid
  phys_ne : (∀ r ∈ t'.regions, r.phys ≠ 0) ∧ t'.ustackPhys ≠ 0 ∧ t'.tlsPhys ≠ 0
  leaf : ∃ ms, Forall₂ Mapping.Cut t'.privateMappings ms ∧
    ∀ a, k'.leaf t'.l0 a = overlay ms a
  tlb : ∀ a v w, k'.tlb a v w = true → t.ttbr0 ≠ 0 → t.asid ≠ 0 → a ≠ t.asid

lemma execTask_userPages {ttbr0 : Nat}
    (h : (∀ r ∈ sp.img.regions, r.phys ≠ 0) ∧ sp.stack ≠ 0 ∧ sp.tls ≠ 0) :
    (execTask t sp ttbr0).userPages = pagesFrom sp.stack userStackPages ++
      (regionPages sp.img.regions ++ pagesFrom sp.tls 1) := by
  obtain ⟨hr, hs, ht⟩ := h
  have himg : (execTask t sp ttbr0).imagePages = regionPages sp.img.regions :=
    flatMap_congr fun r hrm => runPages_of_ne _ (hr r hrm)
  rw [Task.userPages, himg]
  show Task.runPages sp.stack userStackPages ++ (_ ++ ([] ++ ([] ++ Task.runPages sp.tls 1))) = _
  rw [runPages_of_ne _ hs, runPages_of_ne _ ht]
  rfl

/-- Everything the switch frees. -/
def execFreed (k : Kernel) (t : Task) : List Nat :=
  vmaSlots t.vmas ++ (Task.runPages t.ustackPhys userStackPages ++ (Task.runPages t.tlsPhys 1 ++
    (t.imagePages ++ if t.ttbr0 = 0 then [] else k.tablePages t.l0)))

lemma execSwitch_eq (k : Kernel) (t : Task) (sp : ExecSpace) (call : ExecCall) :
    ∃ frame next tlb, (0 < next ∧ next < 2 ^ 16) ∧
      (∀ a v w, tlb a v w = true → k.tlb a v w = true ∧ (t.ttbr0 ≠ 0 → t.asid ≠ 0 → a ≠ t.asid)) ∧
      execFree (execStack (vmaDestroy (schedAsidAlloc k).2 t.vmas) sp.stack sp.img call) t = { k with
          pmm := k.pmm.freeList (execFreed k t)
          frame := frame
          nextAsid := next
          tlb := tlb } := by
  obtain ⟨-, next, tlb1, htlb1, hnext, heq1⟩ := schedAsidAlloc_spec k
  obtain ⟨frame, heq2⟩ := execStack_eq (vmaDestroy (schedAsidAlloc k).2 t.vmas) sp.stack sp.img call
  obtain ⟨tlb, htlb, heq⟩ := execFree_eq
    (execStack (vmaDestroy (schedAsidAlloc k).2 t.vmas) sp.stack sp.img call) t
  refine ⟨frame, next, tlb, hnext, fun a v w hw => ?_, ?_⟩
  · rw [heq2, heq1] at htlb
    exact ⟨htlb1 a v w (htlb a v w hw).1, (htlb a v w hw).2⟩
  · rw [heq, heq2, heq1, execFreed]
    simp only [vmaDestroy, Kernel.pmmFreeList, ← Pmm.freeList_append, vmaSlots]
    rfl

/- These are stated for any register value: inside a larger proof the packed value would be evaluated
when the two records are compared. -/

lemma execTask_stackPhys (t : Task) (sp : ExecSpace) (ttbr0 : Nat) :
    (execTask t sp ttbr0).stackPhys = t.stackPhys := rfl

lemma execTask_records (t : Task) (ttbr0 : Nat) (h : sp.img.regions ≠ []) :
    (execTask t sp ttbr0).vmas = [] ∧ (execTask t sp ttbr0).grown = [] ∧
      (execTask t sp ttbr0).regions ≠ [] ∧ (execTask t sp ttbr0).pid = t.pid :=
  ⟨rfl, rfl, h, rfl⟩

lemma execTask_phys_ne (t : Task) (ttbr0 : Nat)
    (h : (∀ r ∈ sp.img.regions, r.phys ≠ 0) ∧ sp.stack ≠ 0 ∧ sp.tls ≠ 0) :
    (∀ r ∈ (execTask t sp ttbr0).regions, r.phys ≠ 0) ∧ (execTask t sp ttbr0).ustackPhys ≠ 0 ∧
      (execTask t sp ttbr0).tlsPhys ≠ 0 := h

/-- **The switch**: the new pages replace the old ones in the ledger. -/
lemma execed_of_ready {k1 : Kernel} (h : sp.Ready k k1) :
    Execed k t (execFree (execStack (vmaDestroy (schedAsidAlloc k1).2 t.vmas) sp.stack sp.img call) t)
      (execTask t sp (ttbrPack sp.l0 (schedAsidAlloc k1).1)) := by
  have hb := h.built
  have hbounds := hb.taken_l0.bounds
  obtain ⟨frame, next, tlb, hnext, htlb, heq⟩ := execSwitch_eq k1 t sp call
  rw [heq, (schedAsidAlloc_spec k1).1]
  -- of the packed value only its two halves matter
  have hbase : ttbrBaddr (ttbrPack sp.l0 k1.nextAsid) = sp.l0 := ttbrBaddr_pack hbounds.2.2
  have hasid : AsidOk k → ttbrAsid (ttbrPack sp.l0 k1.nextAsid) = k.nextAsid := by
    intro hok
    rw [hb.nextAsid]
    exact ttbrAsid_pack hok.2
  have hne : ttbrPack sp.l0 k1.nextAsid ≠ 0 := ttbrPack_ne_zero hbounds.2.2 hb.taken_l0.ne_zero
  revert hbase hasid hne
  generalize ttbrPack sp.l0 k1.nextAsid = ttbr0
  intro hbase hasid hne
  have hl0 : (execTask t sp ttbr0).l0 = sp.l0 := hbase
  generalize hk' : ({ k1 with
    pmm := k1.pmm.freeList (execFreed k1 t)
    frame := frame
    nextAsid := next
    tlb := tlb } : Kernel) = k'
  have htables : k'.tables = k1.tables := by rw [← hk']
  have hpmm : k'.pmm = k1.pmm.freeList (execFreed k1 t) := by rw [← hk']
  refine ⟨⟨fun F hF => ?_, fun l hl _ => ?_, fun a v w hw => ?_, ?_, fun _ => ?_⟩, hne, ?_, ?_,
    execTask_records t ttbr0 h.regions_ne, execTask_phys_ne t ttbr0 h.phys_ne, ?_, ?_⟩
  · -- the old root is still what it was, so that the old pages can be counted off
    have htab := tables_of_root hF hb.tables_allocated
    have hall := hb.owns _ hF
    have hsplit : k1.Owns (execFreed k1 t ++ (t.grownPages ++ (taskPages k' (execTask t sp ttbr0)
        ++ F))) := by
      refine hall.perm (perm_of_coe_eq ?_)
      have hne : (execTask t sp ttbr0).ttbr0 ≠ 0 := hne
      rw [execFreed, htab, taskPages, taskPages, if_neg hne, hl0, execTask_userPages h.phys_ne,
        Task.userPages, show k'.tablePages sp.l0 = k1.tablePages sp.l0 by
          rw [Kernel.tablePages, Kernel.tablePages, htables],
        execTask_stackPhys]
      simp only [← Multiset.coe_add]
      abel
    rw [Kernel.Owns, hpmm]
    exact Ledger.drop_front (Kernel.Owns.free hsplit)
  · rw [htables]
    exact hb.tables_allocated hl
  · rw [← hk'] at hw
    rw [← hb.tlb]
    exact (htlb a v w hw).1
  · rw [← hk']
    exact (Pmm.freeList_cfg _ _).trans hb.cfg
  · rw [← hk']
    exact hnext
  · rw [hl0]
    exact hb.fresh_l0
  · exact hasid
  · obtain ⟨ms, hcut, -, hleaf⟩ := hb.leaf
    refine ⟨ms, hcut, fun a => ?_⟩
    rw [hl0, Kernel.leaf, htables]
    exact hleaf a
  · intro a v w hw
    rw [← hk'] at hw
    exact (htlb a v w hw).2

/-- **Exec** leaves the task alone, or switches it to an image that owns all its pages. -/
lemma sysExec_cases {t' : Task} {r : Int} (h : sysExec k t call = (r, t', k')) :
    (r = -1 ∧ t' = t ∧ QuietStep k k' ∧ Kernel.Grown k k' []) ∨ (r = 0 ∧ Execed k t k' t') := by
  unfold sysExec at h
  split at h
  · cases h
    exact .inl ⟨rfl, rfl, .refl _, .refl _⟩
  split at h
  · cases h
    exact .inl ⟨rfl, rfl, .refl _, .refl _⟩
  split at h
  · cases h
    exact .inl ⟨rfl, rfl, .refl _, .refl _⟩
  split at h
  · cases h
    exact .inl ⟨rfl, rfl, .refl _, .refl _⟩
  split at h
  · rename_i k1 hk1
    cases h
    exact .inl ⟨rfl, rfl, (heapStep_kmalloc hk1).quiet, (heapStep_kmalloc hk1).2⟩
  rename_i k1 hk1
  have hh1 := heapStep_kmalloc hk1
  split at h
  · cases h
    exact .inl ⟨rfl, rfl, hh1.quiet, hh1.2⟩
  split at h
  · rename_i k2 hk2
    cases h
    have hh2 := hh1.trans (heapStep_kmalloc hk2)
    exact .inl ⟨rfl, rfl, hh2.quiet, hh2.2⟩
  rename_i k2 hk2
  have hh2 := hh1.trans (heapStep_kmalloc hk2)
  split at h
  · cases h
    exact .inl ⟨rfl, rfl, hh2.quiet, hh2.2⟩
  split at h
  · rename_i k3 hspace
    cases h
    obtain ⟨-, hq⟩ | ⟨sp, hsp, -⟩ := execSpace_cases hh2 hspace
    · exact .inl ⟨rfl, rfl, hq⟩
    · cases hsp
  rename_i sp k3 hspace
  cases h
  obtain ⟨hnone, -⟩ | ⟨sp', hsp, hready⟩ := execSpace_cases hh2 hspace
  · cases hnone
  · cases hsp
    exact .inr ⟨rfl, execed_of_ready hready⟩

end FermiOs
