import FermiOs.Sched.Space

/-!
# Page faults

The two demand-paging handlers of `sched/sched.c`, `sched_try_grow_stack` and
`sched_try_handle_vma_fault`, the abort cases of `exception_dispatch`, and the access of the hardware
that leads there: the walk of the page table, the permission check, and the fault status code, which
names the level at which a walk stopped. A walk that stops at level 0 is not handled.

Both handlers install the page with `mmu_map_user_range`, which reports nothing; they record the page
even when the walk found no table page. The result keeps that apart as a flag.
-/

namespace FermiOs
open Library List

/-! ## Handlers -/

/-- Whether a handler resolved a fault; `mapped` tells whether the page reached the table. -/
inductive FaultResult
  | unhandled
  | handled (mapped : Bool)
  deriving DecidableEq

/-- `vma->pages[idx] = pa`. -/
def Vma.setPage (v : Vma) (idx pa : Nat) : Vma := { v with pages := v.pages.set idx pa }

/-- `tlbi vae1` for one page of a task, with the ASID in the operand. -/
def tlbiTask (k : Kernel) (t : Task) (va : Nat) : Kernel :=
  k.tlbiVae1 (t.asid * 2 ^ 48 + va / 4096)

/-- `sched_try_grow_stack`. -/
def schedTryGrowStack (k : Kernel) (t : Task) (far : Nat) : FaultResult × Task × Kernel :=
  if t.ttbr0 = 0 then (.unhandled, t, k)
  else if far < stackMaxLo ∨ stackInitialLo ≤ far then (.unhandled, t, k)
  else if userStackGrownMax ≤ t.grown.length then (.unhandled, t, k)
  else
    match k.pmmAllocatePage with
    | (0, k) => (.unhandled, t, k)
    | (pa, k) =>
      let va := pageAlignDown far
      match (k.memsetPages pa 1).mmuMapUserRange t.l0 va pa 1 stackFlags with
      | (mapped, k) =>
        (.handled mapped, { t with grown := t.grown ++ [(va, pa)] }, tlbiTask k t va)

/-- The permission an access needs from a region. -/
def vmaPermits (prot : Nat) (isWrite isExec : Bool) : Bool :=
  if isExec then protExec prot else if isWrite then protWrite prot else protRead prot

/-- `sched_try_handle_vma_fault`. -/
def schedTryHandleVmaFault (k : Kernel) (t : Task) (far : Nat) (isWrite isExec : Bool) :
    FaultResult × Task × Kernel :=
  if t.ttbr0 = 0 then (.unhandled, t, k)
  else
    match vmaFind t.vmas far with
    | none => (.unhandled, t, k)
    | some v =>
      if vmaPermits v.prot isWrite isExec = false then (.unhandled, t, k)
      else
        let va := pageAlignDown far
        let idx := (va - v.start) / 4096
        if v.npages ≤ idx ∨ v.pages.getD idx 0 ≠ 0 then (.unhandled, t, k)
        else
          match k.pmmAllocatePage with
          | (0, k) => (.unhandled, t, k)
          | (pa, k) =>
            match (k.memsetPages pa 1).mmuMapUserRange t.l0 va pa 1 (mmuProtToFlags v.prot) with
            | (mapped, k) =>
              (.handled mapped, { t with vmas := vmaModify t.vmas far (·.setPage idx pa) },
                tlbiTask k t va)

/-! ## The hardware's side -/

/-- A user access to one byte. -/
inductive Access
  | load
  | store (byte : UInt8)
  | fetch
  deriving DecidableEq

/-- The access is permitted at EL0. -/
def Access.permitted (a : Access) (w : Pte) : Bool :=
  match a with
  | .load => el0Read w
  | .store _ => el0Write w
  | .fetch => el0Exec w

/-- Fault status code of a translation fault: `4` plus the level whose descriptor is invalid. -/
def faultStatus (pt : PageTable) (va : Nat) : Nat :=
  if (pt.table? 1 va).isNone then 4
  else if (pt.table? 2 va).isNone then 5
  else if (pt.table? 3 va).isNone then 6
  else 7

/-- The abort cases of `exception_dispatch` for a translation fault from EL0. -/
def handleAbort (k : Kernel) (t : Task) (far : Nat) (a : Access) (dfsc : Nat) :
    FaultResult × Task × Kernel :=
  if dfsc = 5 ∨ dfsc = 6 ∨ dfsc = 7 then
    match a with
    | .fetch => schedTryHandleVmaFault k t far false true
    | .load =>
      match schedTryGrowStack k t far with
      | (.unhandled, t, k) => schedTryHandleVmaFault k t far false false
      | r => r
    | .store _ =>
      match schedTryGrowStack k t far with
      | (.unhandled, t, k) => schedTryHandleVmaFault k t far true false
      | r => r
  else (.unhandled, t, k)

/-- What happens to one attempt of an access: it goes through with a descriptor, the fault was
resolved and the instruction runs again, or the task is to be killed. -/
inductive Attempt
  | through (w : Pte)
  | again (mapped : Bool)
  | killed
  deriving DecidableEq

/-- One attempt of a user access, with no stale TLB entry in the way. -/
def attemptAccess (k : Kernel) (t : Task) (va : Nat) (a : Access) : Attempt × Task × Kernel :=
  if 2 ^ 48 ≤ va then (.killed, t, k)
  else
    match k.leaf t.l0 va with
    | some w => if a.permitted w then (.through w, t, k) else (.killed, t, k)
    | none =>
      match handleAbort k t va a (faultStatus (k.tables t.l0) va) with
      | (.handled mapped, t, k) => (.again mapped, t, k)
      | (.unhandled, t, k) => (.killed, t, k)

/-- The effect of an access that went through: a store writes its byte. -/
def Access.perform (a : Access) (k : Kernel) (va : Nat) (w : Pte) : Kernel :=
  match a with
  | .store byte =>
    { k with frame := fun p off =>
        if p = pteFrame w ∧ off = va % 4096 then byte else k.frame p off }
  | .load => k
  | .fetch => k

/-! ## Recording a page -/

variable {a : Access} {far l0 pa : Nat} {flags : Pte} {k k' k0 : Kernel} {mapped : Bool}
  {t t' : Task}

section
variable {v : Vma} {idx : Nat}

lemma vmaOk_setPage (hv : VmaOk v) : VmaOk (v.setPage idx pa) := by
  refine ⟨hv.start_aligned, hv.end_aligned, hv.nonempty, ?_⟩
  show v.npages ≤ (v.pages.set idx pa).length
  rw [length_set]
  exact hv.array_len

lemma slots_setPage (hv : VmaOk v) (hidx : idx < v.npages) (h0 : v.pages.getD idx 0 = 0)
    (hpa : pa ≠ 0) : (v.setPage idx pa).slots.Perm (pa :: v.slots) := by
  have hlen : idx < v.pages.length := lt_of_lt_of_le hidx hv.array_len
  have hget : v.pages[idx] = 0 := by
    rw [getD_eq_getElem?_getD, getElem?_eq_getElem hlen] at h0
    exact h0
  -- the array around the entry
  have hold : v.pages = v.pages.take idx ++ 0 :: v.pages.drop (idx + 1) := by
    rw [← hget, cons_getElem_drop_succ, take_append_drop]
  have hnew : v.pages.set idx pa = v.pages.take idx ++ pa :: v.pages.drop (idx + 1) :=
    set_eq_take_append_cons_drop.trans (if_pos hlen)
  have htake : ∀ x, (v.pages.take idx ++ x :: v.pages.drop (idx + 1)).take v.npages =
      v.pages.take idx ++ x :: (v.pages.drop (idx + 1)).take (v.npages - idx - 1) := by
    intro x
    rw [take_append, take_of_length_le (by rw [length_take]; omega), length_take, min_eq_left hlen.le,
      show v.npages - idx = (v.npages - idx - 1) + 1 by omega, take_succ_cons,
      Nat.add_sub_cancel]
  have hs : v.slots = (v.pages.take idx).filter (· ≠ 0) ++
      ((v.pages.drop (idx + 1)).take (v.npages - idx - 1)).filter (· ≠ 0) := by
    rw [Vma.slots]
    conv_lhs => rw [hold]
    rw [htake, filter_append, filter_cons]
    simp
  have hs' : (v.setPage idx pa).slots = (v.pages.take idx).filter (· ≠ 0) ++
      pa :: ((v.pages.drop (idx + 1)).take (v.npages - idx - 1)).filter (· ≠ 0) := by
    rw [Vma.slots, show (v.setPage idx pa).pages = v.pages.set idx pa from rfl, hnew,
      show (v.setPage idx pa).npages = v.npages from rfl, htake, filter_append,
      filter_cons, if_pos (by simpa using hpa)]
  rw [hs, hs']
  exact perm_middle

lemma slot_setPage (hidx : idx < v.pages.length) (a : Nat) :
    (v.setPage idx pa).slot a = if (a - v.start) / 4096 = idx then pa else v.slot a := by
  show (v.pages.set idx pa).getD ((a - v.start) / 4096) 0 = _
  rw [getD_eq_getElem?_getD, getElem?_set]
  by_cases h : (a - v.start) / 4096 = idx
  · rw [if_pos h.symm, if_pos h, if_pos hidx]
    rfl
  · rw [if_neg (fun he => h he.symm), if_neg h, ← getD_eq_getElem?_getD]
    rfl

end

/-! ## What the handlers do -/

/-- A cleared page was taken and, when the walk went through, mapped at the page of `va`. -/
structure NewPage (k : Kernel) (l0 va pa : Nat) (flags : Pte) (mapped : Bool) (k' : Kernel) :
    Prop where
  ne_zero : pa ≠ 0
  build : Kernel.BuildStep l0 [pa] [⟨va, pa, 1, flags⟩] mapped k k'
  zero : ∀ off, k'.frame pa off = 0
  leaf : ∀ a, k'.leaf l0 a =
    if mapped = true ∧ SamePage a va then some (leafPte pa flags) else k.leaf l0 a

variable {p va : Nat} {r : FaultResult}

lemma newPage (hal : k.pmmAllocatePage = (pa, k0)) (hpa : pa ≠ 0)
    (hmap : (k0.memsetPages pa 1).mmuMapUserRange l0 va pa 1 flags = (mapped, k')) :
    NewPage k l0 va pa flags mapped k' := by
  rw [Kernel.pmmAllocatePage_eq] at hal
  have hbuild := Kernel.BuildStep.takeZero hal hpa hmap
  obtain ⟨⟨p, gs, -, rfl⟩, -⟩ := Kernel.pmmAllocatePages_cases hal
  obtain ⟨hs, m, hm, hb, hleaf⟩ := Kernel.mmuMapUserRange_spec hmap
  refine ⟨hpa, hbuild, fun off => ?_, fun a => ?_⟩
  · rw [hs.frame]
    exact if_pos ⟨le_refl _, by omega⟩
  rw [hleaf a]
  cases mapped with
  | true =>
    rw [hb.mp rfl]
    have hin : InPages va 1 a ↔ SamePage a va := by
      rw [inPages_succ va 0 a, or_iff_left (not_inPages_zero _ a)]
    by_cases hsame : SamePage a va
    · rw [if_pos (hin.mpr hsame), if_pos (And.intro rfl hsame),
        show a / 4096 = va / 4096 from hsame, Nat.sub_self, Nat.zero_mul, Nat.add_zero]
    · rw [if_neg (mt hin.mp hsame), if_neg (fun h => hsame h.2)]
      rfl
  | false =>
    have hm0 : m = 0 := by
      have : ¬ m = 1 := fun h => by cases hb.mpr h
      omega
    rw [hm0, if_neg (not_inPages_zero va a), if_neg (fun h => by cases h.1)]
    rfl

/-- The tagged invalidation only drops entries. -/
lemma tlbiTask_eq (k : Kernel) (t : Task) (va : Nat) :
    ∃ tlb, (∀ a v w, tlb a v w = true → k.tlb a v w = true) ∧
      tlbiTask k t va = { k with tlb := tlb } := by
  refine ⟨_, fun a v w h => ?_, rfl⟩
  exact (Bool.and_eq_true_iff.mp h).1

/-- At most a page request was denied. -/
def Denied (k k' : Kernel) : Prop := ∃ gs, k' = { k with grants := gs }

lemma Denied.refl (k : Kernel) : Denied k k := ⟨k.grants, rfl⟩

lemma Denied.quiet (h : Denied k k') : QuietStep k k' := by
  obtain ⟨gs, rfl⟩ := h
  exact ⟨fun _ h => h, fun _ _ => rfl, fun _ _ => rfl, fun _ _ _ h => h, rfl, fun h => h⟩

lemma Denied.trans {k'' : Kernel} (h : Denied k k') (h' : Denied k' k'') : Denied k k'' := by
  obtain ⟨gs, rfl⟩ := h
  obtain ⟨gs', rfl⟩ := h'
  exact ⟨gs', rfl⟩

lemma denied_page (h : k.pmmAllocatePage = (0, k')) : Denied k k' := by
  obtain ⟨⟨p, gs, -, rfl⟩, ⟨-, hp⟩ | ⟨hne, -⟩⟩ := Kernel.pmmAllocatePage_cases h
  · exact ⟨gs, by rw [show p = k.pmm from hp]⟩
  · exact absurd rfl hne

lemma NewPage.of_denied (hd : Denied k k0) (h : NewPage k0 l0 va pa flags mapped k') :
    NewPage k l0 va pa flags mapped k' := by
  obtain ⟨gs, rfl⟩ := hd
  obtain ⟨hne, hb, hz, hleaf⟩ := h
  exact ⟨hne, ⟨hb.took, hb.tables, hb.frame, hb.leaf, hb.tlb, hb.cfg,
    hb.nextPid, hb.nextAsid⟩, hz, hleaf⟩

/-- One page was added below the stack, for a fault at `far`. -/
structure StackGrown (k : Kernel) (t : Task) (far pa : Nat) (mapped : Bool) (t' : Task)
    (k' : Kernel) : Prop where
  user : t.ttbr0 ≠ 0
  zone : stackMaxLo ≤ far ∧ far < stackInitialLo
  page : ∃ k1, NewPage k t.l0 (pageAlignDown far) pa stackFlags mapped k1 ∧
    k' = tlbiTask k1 t (pageAlignDown far)
  task : t' = { t with grown := t.grown ++ [(pageAlignDown far, pa)] }

/-- The empty slot of region `v` for `far` was filled. -/
structure FaultedIn (k : Kernel) (t : Task) (far : Nat) (v : Vma) (pa : Nat) (mapped : Bool)
    (t' : Task) (k' : Kernel) : Prop where
  user : t.ttbr0 ≠ 0
  found : vmaFind t.vmas far = some v
  index : (pageAlignDown far - v.start) / 4096 < v.npages
  empty : v.pages.getD ((pageAlignDown far - v.start) / 4096) 0 = 0
  page : ∃ k1, NewPage k t.l0 (pageAlignDown far) pa (mmuProtToFlags v.prot) mapped k1 ∧
    k' = tlbiTask k1 t (pageAlignDown far)
  task : t' = { t with
    vmas := vmaModify t.vmas far (·.setPage ((pageAlignDown far - v.start) / 4096) pa) }

lemma schedTryGrowStack_cases (h : schedTryGrowStack k t far = (r, t', k')) :
    (r = .unhandled ∧ t' = t ∧ Denied k k') ∨
      ∃ pa mapped, r = .handled mapped ∧ StackGrown k t far pa mapped t' k' := by
  unfold schedTryGrowStack at h
  split at h
  · cases h
    exact .inl ⟨rfl, rfl, .refl _⟩
  rename_i hne
  split at h
  · cases h
    exact .inl ⟨rfl, rfl, .refl _⟩
  split at h
  · cases h
    exact .inl ⟨rfl, rfl, .refl _⟩
  split at h
  · rename_i k1 hal
    cases h
    exact .inl ⟨rfl, rfl, denied_page hal⟩
  · rename_i pa k1 hpa hal
    cases h
    exact .inr ⟨pa, _, rfl, hne, by omega, ⟨_, newPage hal hpa rfl, rfl⟩, rfl⟩

lemma schedTryHandleVmaFault_cases {isWrite isExec : Bool}
    (h : schedTryHandleVmaFault k t far isWrite isExec = (r, t', k')) :
    (r = .unhandled ∧ t' = t ∧ Denied k k') ∨ ∃ v pa mapped, r = .handled mapped ∧
      vmaPermits v.prot isWrite isExec = true ∧ FaultedIn k t far v pa mapped t' k' := by
  unfold schedTryHandleVmaFault at h
  split_ifs at h with hne
  · cases h
    exact .inl ⟨rfl, rfl, .refl _⟩
  split at h
  · cases h
    exact .inl ⟨rfl, rfl, .refl _⟩
  rename_i v hfind
  split_ifs at h with hperm
  · cases h
    exact .inl ⟨rfl, rfl, .refl _⟩
  dsimp only at h
  split_ifs at h with hslot
  · cases h
    exact .inl ⟨rfl, rfl, .refl _⟩
  split at h
  · rename_i k1 hal
    cases h
    exact .inl ⟨rfl, rfl, denied_page hal⟩
  rename_i pa k1 hpa hal
  cases h
  have hslot := not_or.mp hslot
  exact .inr ⟨v, pa, _, rfl, Bool.eq_true_of_not_eq_false hperm, hne, hfind,
    not_le.mp hslot.1, not_not.mp hslot.2, ⟨_, newPage hal hpa rfl, rfl⟩, rfl⟩

lemma handleAbort_cases {dfsc : Nat} (h : handleAbort k t far a dfsc = (r, t', k')) :
    (r = .unhandled ∧ t' = t ∧ Denied k k') ∨ ∃ mapped, r = .handled mapped ∧
      ((∃ pa, StackGrown k t far pa mapped t' k') ∨ ∃ v pa, FaultedIn k t far v pa mapped t' k') := by
  have hvma : ∀ {isWrite isExec : Bool} {k0 : Kernel}, Denied k k0 →
      schedTryHandleVmaFault k0 t far isWrite isExec = (r, t', k') →
      (r = .unhandled ∧ t' = t ∧ Denied k k') ∨ ∃ mapped, r = .handled mapped ∧
        ((∃ pa, StackGrown k t far pa mapped t' k') ∨ ∃ v pa, FaultedIn k t far v pa mapped t' k') := by
    intro isWrite isExec k0 hd h
    obtain ⟨hr, ht, hd'⟩ | ⟨v, pa, mapped, hr, -, hf⟩ := schedTryHandleVmaFault_cases h
    · exact .inl ⟨hr, ht, hd.trans hd'⟩
    · obtain ⟨k1, hpage, hk'⟩ := hf.page
      exact .inr ⟨mapped, hr, .inr ⟨v, pa, hf.user, hf.found, hf.index, hf.empty,
        ⟨k1, hpage.of_denied hd, hk'⟩, hf.task⟩⟩
  have hgrow : ∀ isWrite : Bool, (match schedTryGrowStack k t far with
      | (.unhandled, t, k) => schedTryHandleVmaFault k t far isWrite false
      | r => r) = (r, t', k') →
      (r = .unhandled ∧ t' = t ∧ Denied k k') ∨ ∃ mapped, r = .handled mapped ∧
        ((∃ pa, StackGrown k t far pa mapped t' k') ∨ ∃ v pa, FaultedIn k t far v pa mapped t' k') := by
    intro isWrite hm
    rcases hg : schedTryGrowStack k t far with ⟨r0, t0, k0⟩
    rw [hg] at hm
    obtain ⟨rfl, ht, hd⟩ | ⟨pa, mapped, rfl, hs⟩ := schedTryGrowStack_cases hg
    · rw [ht] at hm
      exact hvma hd hm
    · cases hm
      exact .inr ⟨mapped, rfl, .inl ⟨pa, hs⟩⟩
  unfold handleAbort at h
  split at h
  · cases a with
    | fetch => exact hvma (.refl k) h
    | load => exact hgrow false h
    | store byte => exact hgrow true h
  · cases h
    exact .inl ⟨rfl, rfl, .refl _⟩

/-- **One attempt of an access** goes through, is refused, or adds the missing page. -/
lemma attemptAccess_cases {o : Attempt} (h : attemptAccess k t va a = (o, t', k')) :
    (∃ w, o = .through w ∧ k.leaf t.l0 va = some w ∧ t' = t ∧ k' = k) ∨
      (o = .killed ∧ t' = t ∧ Denied k k') ∨
      ∃ mapped, o = .again mapped ∧ k.leaf t.l0 va = none ∧
        ((∃ pa, StackGrown k t va pa mapped t' k') ∨ ∃ v pa, FaultedIn k t va v pa mapped t' k') := by
  unfold attemptAccess at h
  split at h
  · cases h
    exact .inr (.inl ⟨rfl, rfl, .refl _⟩)
  split at h
  · rename_i w hw
    split at h
    · cases h
      exact .inl ⟨w, rfl, hw, rfl, rfl⟩
    · cases h
      exact .inr (.inl ⟨rfl, rfl, .refl _⟩)
  rename_i hnone
  split at h
  · rename_i mapped t1 k1 hab
    cases h
    obtain ⟨hr, -⟩ | ⟨m, hr, hcase⟩ := handleAbort_cases hab
    · cases hr
    · cases hr
      exact .inr (.inr ⟨mapped, rfl, hnone, hcase⟩)
  rename_i t1 k1 hab
  cases h
  obtain ⟨-, ht, hd⟩ | ⟨m, hr, -⟩ := handleAbort_cases hab
  · exact .inr (.inl ⟨rfl, ht, hd⟩)
  · cases hr

/-! ## Effect on the records -/

lemma samePage_pageAlignDown (a b : Nat) : SamePage a (pageAlignDown b) ↔ SamePage a b := by
  simp only [SamePage, pageAlignDown]
  omega

lemma StackGrown.local (h : StackGrown k t far pa mapped t' k') : LocalStep k t k' t' := by
  obtain ⟨k1, hpage, rfl⟩ := h.page
  obtain ⟨tlb, htlb, heq⟩ := tlbiTask_eq k1 t (pageAlignDown far)
  rw [heq, h.task]
  refine hpage.build.local htlb h.user rfl rfl ?_
  have hgrown : Task.grownPages { t with grown := t.grown ++ [(pageAlignDown far, pa)] } =
      t.grownPages ++ [pa] := by
    simp [Task.grownPages, filter_append, hpage.ne_zero]
  rw [Task.userPages, Task.userPages, hgrown]
  grind [Task.imagePages]

/-- The leaf of the task after stack growth. -/
lemma StackGrown.leaf (h : StackGrown k t far pa mapped t' k') (a : Nat) : k'.leaf t.l0 a =
      if mapped = true ∧ SamePage a far then some (leafPte pa stackFlags) else k.leaf t.l0 a := by
  obtain ⟨k1, hpage, rfl⟩ := h.page
  show k1.leaf t.l0 a = _
  simp only [hpage.leaf a, samePage_pageAlignDown]

lemma FaultedIn.leaf {v : Vma} (h : FaultedIn k t far v pa mapped t' k') (a : Nat) : k'.leaf t.l0 a =
      if mapped = true ∧ SamePage a far then some (leafPte pa (mmuProtToFlags v.prot))
      else k.leaf t.l0 a := by
  obtain ⟨k1, hpage, rfl⟩ := h.page
  show k1.leaf t.l0 a = _
  simp only [hpage.leaf a, samePage_pageAlignDown]

section
variable {v : Vma}

section
variable (h : FaultedIn k t far v pa mapped t' k')
include h

/-- The region around the filled slot, before and after. -/
lemma FaultedIn.split : ∃ l r, t.vmas = l ++ v :: r ∧ vmaSeg.Covers v far ∧
      t'.vmas = l ++ v.setPage ((pageAlignDown far - v.start) / 4096) pa :: r := by
  obtain ⟨l, r, hset, hc, hmod⟩ := vmaModify_split h.found
  refine ⟨l, r, hset, hc, ?_⟩
  rw [h.task]
  exact hmod _

variable (hok : AllOk t.vmas)
include hok

lemma FaultedIn.allOk : AllOk t'.vmas := by
  obtain ⟨l, r, hset, -, hset'⟩ := h.split
  intro x hx
  rw [hset', mem_append, mem_cons] at hx
  rcases hx with hx | rfl | hx
  · exact hok x (by rw [hset]; exact mem_append_left _ hx)
  · exact vmaOk_setPage (hok v (by rw [hset]; simp))
  · exact hok x (by rw [hset]; simp [hx])

lemma FaultedIn.slots : (vmaSlots t'.vmas).Perm (pa :: vmaSlots t.vmas) := by
  obtain ⟨l, r, hset, -, hset'⟩ := h.split
  obtain ⟨k1, hpage, -⟩ := h.page
  have hv : VmaOk v := hok v (by rw [hset]; simp)
  have hslots := slots_setPage hv h.index h.empty hpage.ne_zero
  rw [hset, hset', vmaSlots, vmaSlots, flatMap_append, flatMap_append, flatMap_cons, flatMap_cons]
  exact ((hslots.append_right _).append_left _).trans perm_middle

lemma FaultedIn.local : LocalStep k t k' t' := by
  have hslots := h.slots hok
  obtain ⟨k1, hpage, hk'⟩ := h.page
  obtain ⟨tlb, htlb, heq⟩ := tlbiTask_eq k1 t (pageAlignDown far)
  rw [hk', heq]
  have ht := h.task
  refine hpage.build.local htlb h.user (by rw [ht]) (by rw [ht]) ?_
  simp only [Task.userPages, Task.imagePages, Task.grownPages]
  grind

end

/-- The value of the region with the slot filled. -/
lemma val_setPage (hv : VmaOk v) (hc : vmaSeg.Covers v far)
    (hidx : (pageAlignDown far - v.start) / 4096 < v.npages) (hp : vmaSeg.Covers v p) :
    vmaSeg.val (v.setPage ((pageAlignDown far - v.start) / 4096) pa) p =
      if SamePage p far then (v.prot, v.flags, pa) else vmaSeg.val v p := by
  have hst := hv.start_aligned
  have hc : v.start ≤ far ∧ far < v.end_ := hc
  have hp : v.start ≤ p ∧ p < v.end_ := hp
  have hiff : (p - v.start) / 4096 = (pageAlignDown far - v.start) / 4096 ↔ SamePage p far := by
    simp only [SamePage, pageAlignDown]
    omega
  show (v.prot, v.flags, Vma.slot _ p) = _
  rw [slot_setPage (lt_of_lt_of_le hidx hv.array_len)]
  by_cases hs : SamePage p far
  · rw [if_pos (hiff.mpr hs), if_pos hs]
  · rw [if_neg (mt hiff.mp hs), if_neg hs]
    rfl

variable (h : FaultedIn k t far v pa mapped t' k')
include h

/-- Off the page of the fault the set records what it did. -/
lemma FaultedIn.holds_off (hok : AllOk t.vmas) (hp : ¬ SamePage p far) (g : Nat × Nat × Nat) :
    vmaSeg.Holds t'.vmas p g ↔ vmaSeg.Holds t.vmas p g := by
  obtain ⟨l, r, hset, hc, hset'⟩ := h.split
  have hv : VmaOk v := hok v (by rw [hset]; simp)
  rw [hset, hset', vmaSeg.holds_perm perm_middle, vmaSeg.holds_perm perm_middle,
    vmaSeg.holds_cons, vmaSeg.holds_cons]
  refine or_congr_left (and_congr_right fun hcov => ?_)
  rw [val_setPage hv hc h.index hcov, if_neg hp]

/-- On the page of the fault the set records the new page. -/
lemma FaultedIn.holds_on (hok : AllOk t.vmas)
    (hp : SamePage p far) : vmaSeg.Holds t'.vmas p (v.prot, v.flags, pa) := by
  obtain ⟨l, r, hset, hc, hset'⟩ := h.split
  have hv : VmaOk v := hok v (by rw [hset]; simp)
  have hcov : vmaSeg.Covers v p := by
    have := hv.start_aligned
    have := hv.end_aligned
    have hc : v.start ≤ far ∧ far < v.end_ := hc
    simp only [SamePage] at hp
    exact show v.start ≤ p ∧ p < v.end_ by omega
  rw [hset', vmaSeg.holds_perm perm_middle, vmaSeg.holds_cons]
  refine .inl ⟨hcov, ?_⟩
  rw [val_setPage hv hc h.index hcov, if_pos hp]

end
end FermiOs
