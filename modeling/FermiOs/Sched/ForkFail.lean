import FermiOs.Fs.Descriptors
import FermiOs.Sched.Fork
import FermiOs.Sched.Queue

/-!
# Forks that fail

`sched_fork` with everything it touches: the page allocator, the live blocks of the kernel heap, the
descriptor tables and the run queue. Each of its failure exits has an unwind list of its own. The
early exits return what was taken, but the lists of the later ones are incomplete: the copied image
is forgotten when there is no user stack, the copies of the grown stack besides when there is no TLS
page, and the TLS page and everything copied for the regions when the descriptors cannot be cloned.
`fork_failure_iff` says for which refused requests nothing is lost.
-/

namespace FermiOs
open Library List Function
variable {xs zs : List Nat} {k k' : Kernel} {set : VmaSet}

/-! ## The whole call -/

/-- The state a fork works on. The parent is the current task. -/
structure ForkWorld where
  k : Kernel
  queue : Queue
  fds : Fds.State
  /-- The live blocks of the kernel heap. -/
  live : List Nat

/-- The blocks the heap has for the record, the page arrays and the descriptor table of the child, and
the position of the parent's descriptor table. -/
structure ForkInput where
  record : Nat
  arrays : List Nat
  block : Nat
  table : Nat

/-- `sched_fork`: the pid of the child, or nothing for `-1`. The record is freed at every exit behind
its allocation. A region owns one page array, and no exit frees the arrays of the child. -/
def schedForkCall (E : ForkInput) (w : ForkWorld) : Option Nat × ForkWorld :=
  match w.k.kmalloc with
  | (false, k) => (none, { w with k := k })
  | (true, _) =>
    let live := E.record :: w.live
    -- the request for the record is repeated inside
    match forkSpace w.k w.queue.cur with
    | (none, k) => (none, { w with k := k, live := live.erase E.record })
    | (some sp, k) =>
      let vmas := forkVmas sp.l0 k w.queue.cur.vmas
      let live := live ++ E.arrays.take vmas.out.length
      let asid := schedAsidAlloc { vmas.k with nextPid := vmas.k.nextPid + 1 }
      match fdTableClone asid.2 w.queue.cur.fds with
      | (false, k) =>
        (none, { w with
          k := ((k.mmuFreeUserTables sp.l0).pmmFreePages sp.ustack userStackPages).pmmFreePages
            sp.kstack taskStackPages
          live := live.erase E.record })
      | (true, k) =>
        let child := childTask w.queue.cur vmas.k.nextPid sp.kstack (ttbrPack sp.l0 asid.1)
          sp.ustack sp.tls sp.regions sp.grown vmas.out
        (some child.pid, {
          k := k
          queue := w.queue.insert child
          fds := Fds.fdTableClone w.fds E.table true
          live := live ++ [E.block] })

/-- **The whole call and its core**: the same result, the same memory, and the child enters the
ring. -/
theorem schedForkCall_eq (E : ForkInput) (w : ForkWorld) :
    (schedForkCall E w).1 = (schedFork w.k w.queue.cur).child.map Task.pid ∧
      (schedForkCall E w).2.k = (schedFork w.k w.queue.cur).k ∧
      (schedForkCall E w).2.queue =
        (schedFork w.k w.queue.cur).child.elim w.queue (w.queue.insert ·) := by
  unfold schedForkCall schedFork
  rcases hk : w.k.kmalloc with ⟨_ | _, k⟩
  · have hspace : forkSpace w.k w.queue.cur = (none, k) := by rw [forkSpace, hk]
    rw [hspace]
    exact ⟨rfl, rfl, rfl⟩
  rcases forkSpace w.k w.queue.cur with ⟨_ | sp, k1⟩
  · exact ⟨rfl, rfl, rfl⟩
  dsimp only
  rcases fdTableClone (schedAsidAlloc { (forkVmas sp.l0 k1 w.queue.cur.vmas).k with
    nextPid := (forkVmas sp.l0 k1 w.queue.cur.vmas).k.nextPid + 1 }).2 w.queue.cur.fds
    with ⟨_ | _, k2⟩
  · exact ⟨rfl, rfl, rfl⟩
  · exact ⟨rfl, rfl, rfl⟩

/-! ## What is left -/

/-- What a step took beyond the heap is determined. -/
lemma Kernel.Grown.nil_iff (h : Kernel.Grown k k' xs) : Kernel.Grown k k' [] ↔ xs = [] := by
  constructor
  · rintro ⟨hs, heap, ht⟩
    obtain ⟨hs', heap', ht'⟩ := h
    have heq : hs' = hs := append_cancel_right (heap'.symm.trans heap)
    subst heq
    refine eq_nil_iff_forall_not_mem.mpr fun x hx => ?_
    have hout := (ht'.iff x).mpr (.inl (mem_append_left _ hx))
    rcases (ht.iff x).mp hout with hmem | hold
    · exact (nodup_append.mp ht'.nodup).2.2 x hx x hmem rfl
    · exact ht'.fresh x (mem_append_left _ hx) hold
  · rintro rfl
    exact h

variable {F : List Nat} {l0 : Nat} {parent : Task}

/-! ## The exit behind the regions -/

/-- From `k` to `k'` the page `x` stays in use, and does not become a page of the heap. -/
def Kernel.Keeps (x : Nat) (k k' : Kernel) : Prop :=
  k.pmm.Allocated x → k'.pmm.Allocated x ∧ ∃ hs, k'.pmm.heap = hs ++ k.pmm.heap ∧ x ∉ hs

namespace Kernel.Keeps
variable {x : Nat} {k'' : Kernel}

lemma of_grown (h : Kernel.Grown k k' xs) : Kernel.Keeps x k k' := by
  intro hx
  refine ⟨h.mono hx, ?_⟩
  obtain ⟨hs, heap, ht⟩ := h
  exact ⟨hs, heap, fun hmem => ht.fresh x (mem_append_right _ hmem) hx⟩

lemma trans (h : Kernel.Keeps x k k') (h' : Kernel.Keeps x k' k'') : Kernel.Keeps x k k'' := by
  intro hx
  obtain ⟨hx', hs, heap, hmem⟩ := h hx
  obtain ⟨hx'', hs', heap', hmem'⟩ := h' hx'
  refine ⟨hx'', hs' ++ hs, by rw [heap', heap, append_assoc], ?_⟩
  exact fun hin => (mem_append.mp hin).elim hmem' hmem

lemma free (hx : x ∉ zs) : Kernel.Keeps x k (k.pmmFreeList zs) := fun hout =>
  ⟨(Pmm.freeList_given k.pmm zs x).mpr ⟨hout, hx⟩, [], Pmm.freeList_heap k.pmm zs, not_mem_nil⟩

end Kernel.Keeps

/-- A page listed behind what is freed is kept. -/
lemma Kernel.Owns.keeps_free (h : k.Owns (zs ++ F)) : ∀ x ∈ F, Kernel.Keeps x k (k.pmmFreeList zs) :=
  fun _ hx => .free fun hz => Ledger.ne_of_append h hz hx rfl

/-- What unmapping a range of regions does to the pages of others. -/
lemma vmaUnmapRange_keeps {set' : VmaSet} {start end_ : Nat} {r : Option Nat} (hok : AllOk set)
    (hown : k.Owns (vmaSlots set ++ F)) (h : vmaUnmapRange k set start end_ = (r, set', k')) :
    AllOk set' ∧ k'.Owns (vmaSlots set' ++ F) ∧ (∀ x ∈ F, Kernel.Keeps x k k') ∧
      k'.tables = k.tables := by
  obtain ⟨-, hs, hcut⟩ | ⟨k1, set1, hs1, hcut, -, -, hs2, hmerge⟩ := vmaUnmapRange_cases h
  · exact ⟨hcut.ok hok, (hs.owns hown).perm ((hcut.slots hok).symm.append_right F),
      fun x _ => .of_grown hs.2, hs.tables⟩
  have hok1 := hcut.ok hok
  -- what is inside the range comes first
  have hsplit : (vmaSlots set1).Perm
      (vmaSlots (set1.filter fun v => decide (Inside start end_ v)) ++
        vmaSlots (set1.filter fun v => decide (¬ Inside start end_ v))) := by
    have hperm := filter_append_perm (fun v => decide (Inside start end_ v)) set1
    rw [vmaSlots, vmaSlots, vmaSlots, ← flatMap_append]
    simp only [decide_not]
    exact (hperm.flatMap_right Vma.slots).symm
  have hown1 := ((hs1.owns hown).perm ((hcut.slots hok).symm.append_right F)).perm
    (hsplit.append_right F)
  rw [append_assoc] at hown1
  have hokf : AllOk (set1.filter fun v => decide (¬ Inside start end_ v)) :=
    fun v hv => hok1 v (mem_of_mem_filter hv)
  refine ⟨hmerge.ok hokf, ?_, fun x hx => ?_, hs2.tables.trans hs1.tables⟩
  · rw [hmerge.slots hokf]
    exact hs2.owns hown1.free
  · exact ((Kernel.Keeps.of_grown hs1.2).trans
      (hown1.keeps_free x (mem_append_right _ hx))).trans (.of_grown hs2.2)

/-- **The copied regions**, whatever is refused: pages of others are kept, those of the table among
them. -/
lemma privatizeVmas_keeps {fuel vi : Nat} (hok : AllOk set)
    (hown : k.Owns (k.tablePages l0 ++ (vmaSlots set ++ F))) {q : Copy VmaSet}
    (hq : privatizeVmas l0 fuel vi set k = q) :
    q.k.Owns (q.k.tablePages l0 ++ F) ∧ ∀ x ∈ F, Kernel.Keeps x k q.k := by
  subst hq
  have hdone : ∀ (k : Kernel) (set : VmaSet), k.Owns (k.tablePages l0 ++ (vmaSlots set ++ F)) →
      k.Owns (k.tablePages l0 ++ F) := fun k set h =>
    h.sublist ((sublist_append_right _ F).append_left _)
  induction fuel generalizing vi set k with
  | zero => exact ⟨hdone k set hown, fun x _ => .of_grown (.refl k)⟩
  | succ fuel ih =>
    rw [privatizeVmas]
    cases hcv : set[vi]? with
    | none => exact ⟨hdone k set hown, fun x _ => .of_grown (.refl k)⟩
    | some cv =>
      dsimp only
      generalize hpages : privatizePages l0 (mmuProtToFlags cv.prot) k cv.start
        (cv.pages.take cv.npages) = r
      obtain ⟨hlen, new, old, ms, hb, hout, hold, -⟩ := privatizePages_spec hpages
      obtain ⟨hlt, hget⟩ := List.getElem?_eq_some_iff.mp hcv
      have hmem : cv ∈ set := hget ▸ getElem_mem hlt
      obtain ⟨htake, hcv'⟩ := (hok cv hmem).replace hlen
      obtain ⟨cv', heq⟩ : ∃ x : Vma, x = { cv with pages := r.out ++ cv.pages.drop cv.npages } :=
        ⟨_, rfl⟩
      have hslots : cv'.slots = new.reverse ++ old := by
        rw [heq]
        exact (congrArg _ htake).trans hout
      rw [← heq] at hcv' ⊢
      have hok' := @AllOk.replace _ _ vi hok hcv'
      -- the new entry lists copies and some of its old pages
      have hown1 : r.k.Owns (r.k.tablePages l0 ++ (vmaSlots (set.set vi cv') ++ F)) := by
        have hall := hb.owns _ hown
        have hset : set = set.take vi ++ cv :: set.drop (vi + 1) := by
          rw [← hget, ← drop_eq_getElem_cons hlt, take_append_drop]
        have hset' : set.set vi cv' = set.take vi ++ cv' :: set.drop (vi + 1) := by
          rw [set_eq_take_append_cons_drop, if_pos hlt]
        have hsub : old.Sublist cv.slots := hold
        rw [hset, vmaSlots, flatMap_append, flatMap_cons] at hall
        rw [hset', vmaSlots, flatMap_append, flatMap_cons, hslots]
        have hfewer := hall.sublist ((((List.Sublist.refl (flatMap Vma.slots (set.take vi))).append
          (hsub.append (List.Sublist.refl (flatMap Vma.slots (set.drop (vi + 1)))))).append
            (List.Sublist.refl F)).append_left new |>.append_left (r.k.tablePages l0))
        refine hfewer.perm (perm_of_coe_eq ?_)
        have hrev : (new.reverse : Multiset Nat) = new := Multiset.coe_reverse new
        simp only [← Multiset.coe_add, hrev]
        abel
      have hkeeps1 : ∀ x ∈ F, Kernel.Keeps x k r.k := by
        intro x _ hx
        obtain ⟨ts, -, hg⟩ := hb.took
        exact Kernel.Keeps.of_grown hg hx
      split
      · obtain ⟨h1, h2⟩ := @ih _ _ (vi + 1) hok' hown1
        exact ⟨h1, fun x hx => (hkeeps1 x hx).trans (h2 x hx)⟩
      -- the region goes, with whatever its record names
      have hl0 : l0 ≠ 0 := (hown1.2 l0 (mem_append_left _ mem_cons_self)).ne_zero
      obtain ⟨pt, tlb, htabs, -, -, hun⟩ := r.k.mmuUnmapUserRange_spec hl0 cv.start cv.npages
      obtain ⟨k2, hk2⟩ : ∃ k2, r.k.mmuUnmapUserRange l0 cv.start cv.npages = k2 := ⟨_, rfl⟩
      rw [hk2] at hun ⊢
      have htp : k2.tablePages l0 = r.k.tablePages l0 := by
        rw [hun]
        simp only [Kernel.tablePages, update_self, PageTable.pages, htabs]
      have hpmm : k2.pmm = r.k.pmm := by rw [hun]
      have hown2 : k2.Owns (vmaSlots (set.set vi cv') ++ (k2.tablePages l0 ++ F)) := by
        rw [Kernel.Owns, hpmm, htp]
        exact hown1.perm (by grind)
      rcases hun : vmaUnmapRange k2 (set.set vi cv') cv.start cv.end_ with ⟨u, set3, k3⟩
      obtain ⟨hok3, hown3, hkeeps3, htables⟩ := vmaUnmapRange_keeps hok' hown2 hun
      have htp3 : k3.tablePages l0 = k2.tablePages l0 := by
        rw [Kernel.tablePages, Kernel.tablePages, htables]
      have hfront : k3.Owns (k3.tablePages l0 ++ (vmaSlots set3 ++ F)) := by
        exact hown3.perm (by grind)
      obtain ⟨h1, h2⟩ := @ih _ _ vi hok3 hfront
      refine ⟨h1, fun x hx => (hkeeps1 x hx).trans (Kernel.Keeps.trans ?_ (h2 x hx))⟩
      exact Kernel.Keeps.trans (.of_grown (.of_pmm hpmm))
        (hkeeps3 x (mem_append_right _ hx))

/-- A refused clone frees what its records name, which is what the source names. -/
lemma vmaClone_none {dst src : VmaSet} (hown : k.Owns (vmaSlots dst ++ (vmaSlots src ++ F)))
    (h : vmaClone k dst src = (none, k')) :
    k'.Owns F ∧ (∀ x ∈ F, Kernel.Keeps x k k') ∧ k'.tables = k.tables := by
  induction src generalizing k dst with
  | nil => exact absurd (congrArg Prod.fst h) (Option.some_ne_none _)
  | cons v vs ih =>
    rw [vmaClone] at h
    split at h
    · rename_i k1 hk
      obtain rfl := congrArg Prod.snd h
      have hs := heapStep_kmalloc hk
      have hown1 := hs.owns hown
      exact ⟨Ledger.drop_front hown1.free, fun x hx => (Kernel.Keeps.of_grown hs.2).trans
        (hown1.keeps_free x (mem_append_right _ hx)), hs.tables⟩
    rename_i k1 hk
    have hs := heapStep_kmalloc hk
    have hslots : (vmaSlots (vmaInsertSorted dst v.trim)).Perm (v.slots ++ vmaSlots dst) := by
      refine (vmaSlots_perm (vmaInsertSorted_perm dst v.trim)).trans ?_
      rw [vmaSlots_cons, slots_trim]
    have hown1 : k1.Owns (vmaSlots (vmaInsertSorted dst v.trim) ++ (vmaSlots vs ++ F)) := by
      refine (hs.owns hown).perm ?_
      rw [vmaSlots_cons]
      exact List.Perm.trans (by grind) (hslots.symm.append_right _)
    obtain ⟨h1, h2, h3⟩ := ih hown1 h
    exact ⟨h1, fun x hx => (Kernel.Keeps.of_grown hs.2).trans (h2 x hx), h3.trans hs.tables⟩

lemma forkVmas_keeps {vmas : VmaSet} (hok : AllOk vmas)
    (hown : k.Owns (k.tablePages l0 ++ (vmaSlots vmas ++ F))) {r : Copy VmaSet}
    (hr : forkVmas l0 k vmas = r) :
    r.k.Owns (r.k.tablePages l0 ++ F) ∧ ∀ x ∈ F, Kernel.Keeps x k r.k := by
  unfold forkVmas at hr
  split at hr
  · subst hr
    exact ⟨hown.sublist ((sublist_append_right _ F).append_left _), fun x _ => .of_grown (.refl k)⟩
  split at hr
  · rename_i k1 hclone
    subst hr
    have hown' : k.Owns (vmaSlots [] ++ (vmaSlots vmas ++ (k.tablePages l0 ++ F))) := by
      refine hown.perm ?_
      rw [show vmaSlots [] = [] from rfl]
      grind
    obtain ⟨h1, h2, h3⟩ := vmaClone_none hown' hclone
    have htp : k1.tablePages l0 = k.tablePages l0 := by
      rw [Kernel.tablePages, Kernel.tablePages, h3]
    exact ⟨htp.symm ▸ h1, fun x hx => h2 x (mem_append_right _ hx)⟩
  rename_i set k1 hclone
  obtain ⟨hheap, hperm, -⟩ := vmaClone_some hclone
  rw [nil_append] at hperm
  have hslots : (vmaSlots set).Perm (vmaSlots vmas) := by
    refine (vmaSlots_perm hperm).trans ?_
    rw [vmaSlots, vmaSlots, flatMap_map]
    simp only [slots_trim]
    exact List.Perm.refl _
  have hown1 : k1.Owns (k1.tablePages l0 ++ (vmaSlots set ++ F)) := by
    rw [Kernel.tablePages, hheap.tables]
    exact (hheap.owns hown).perm ((hslots.symm.append_right F).append_left _)
  obtain ⟨h1, h2⟩ := privatizeVmas_keeps (hok.trim hperm) hown1 hr
  exact ⟨h1, fun x hx => (Kernel.Keeps.of_grown hheap.2).trans (h2 x hx)⟩

/-- **The last exit** always forgets the TLS page. -/
lemma fork_forgets_tls {k1 k2 : Kernel} {sp : ForkSpace} (hok : AllOk parent.vmas)
    (hown : k.Owns (vmaSlots parent.vmas)) (hsp : sp.Copied k parent k1)
    (hfd : fdTableClone (schedAsidAlloc { (forkVmas sp.l0 k1 parent.vmas).k with
      nextPid := (forkVmas sp.l0 k1 parent.vmas).k.nextPid + 1 }).2 parent.fds = (false, k2)) :
    ¬ Kernel.Grown k (((k2.mmuFreeUserTables sp.l0).pmmFreePages sp.ustack
      userStackPages).pmmFreePages sp.kstack taskStackPages) [] := by
  have htls : sp.tls ∈ pagesFrom sp.tls 1 := by
    exact mem_singleton_self _
  -- the pages of the child, with those that are freed in front of the TLS page
  have hown1 : k1.Owns (k1.tablePages sp.l0 ++ (vmaSlots parent.vmas ++
      (pagesFrom sp.ustack userStackPages ++ (pagesFrom sp.kstack taskStackPages ++
        (pagesFrom sp.tls 1 ++ (sp.grown.map Prod.snd ++ regionPages sp.regions)))))) := by
    exact (hsp.built.owns _ hown).perm (by grind)
  generalize hvmas : forkVmas sp.l0 k1 parent.vmas = vmas at hfd
  obtain ⟨hown2, hkeeps⟩ := forkVmas_keeps hok hown1 hvmas
  have hmem : sp.tls ∈ pagesFrom sp.ustack userStackPages ++ (pagesFrom sp.kstack taskStackPages ++
      (pagesFrom sp.tls 1 ++ (sp.grown.map Prod.snd ++ regionPages sp.regions))) :=
    mem_append_right _ (mem_append_right _ (mem_append_left _ htls))
  have hkept := hkeeps _ hmem
  obtain ⟨-, next, tlb, -, -, hasid⟩ :=
    schedAsidAlloc_spec { vmas.k with nextPid := vmas.k.nextPid + 1 }
  rw [hasid] at hfd
  have hheap := fdTableClone_heap hfd
  have htp : k2.tablePages sp.l0 = vmas.k.tablePages sp.l0 := by
    rw [Kernel.tablePages, hheap.tables]
    rfl
  have hown3 := hheap.owns hown2
  rw [← htp] at hown3
  have hpmm : Kernel.Keeps sp.tls vmas.k k2 := Kernel.Keeps.of_grown hheap.2
  simp only [mmuFreeUserTables_eq, pmmFreePages_eq, pmmFreeList_pmmFreeList, append_assoc]
  have hsplit : k2.Owns ((k2.tablePages sp.l0 ++ (pagesFrom sp.ustack userStackPages ++
      pagesFrom sp.kstack taskStackPages)) ++
        (pagesFrom sp.tls 1 ++ (sp.grown.map Prod.snd ++ regionPages sp.regions))) := by
    simpa only [append_assoc] using hown3
  have hfree := hsplit.keeps_free _ (mem_append_left _ htls)
  -- it was free before, is in use now, and is no page of the heap
  rintro ⟨hs, heap, ht⟩
  have hall := (hkept.trans hpmm).trans hfree
  have hin : sp.tls ∈ k1.tablePages sp.l0 ++ (pagesFrom sp.tls 1 ++ (sp.grown.map Prod.snd ++
      (pagesFrom sp.ustack userStackPages ++ (regionPages sp.regions ++
        pagesFrom sp.kstack taskStackPages)))) :=
    mem_append_right _ (mem_append_left _ htls)
  obtain ⟨hout, hs', heap', hnot⟩ := hall (hsp.built.took.taken hin)
  have hfresh := hsp.built.took.fresh hin
  obtain ⟨hs1, heap1, ht1⟩ := hsp.built.took
  have hboth : hs ++ k.pmm.heap = (hs' ++ hs1) ++ k.pmm.heap := by
    rw [← heap, heap', heap1, append_assoc]
  have hheaps : hs = hs' ++ hs1 := append_cancel_right hboth
  rcases (ht.iff sp.tls).mp hout with hx | hx
  · rw [nil_append, hheaps, mem_append] at hx
    rcases hx with hx | hx
    · exact hnot hx
    · exact (nodup_append.mp ht1.nodup).2.2 sp.tls hin sp.tls hx rfl
  · exact hfresh hx

/-! ## The claim of the unwind lists -/

/-- Nothing is left of the attempt: the ring with all records, the descriptors, the blocks of the heap
and the allocated pages are as before, apart from growth of the heap. -/
structure ForkUndone (w w' : ForkWorld) : Prop where
  queue : w'.queue = w.queue
  fds : w'.fds = w.fds
  live : ∀ b, b ∈ w'.live ↔ b ∈ w.live
  pages : Kernel.Grown w.k w'.k []

/-- **A failed fork** leaves nothing behind exactly when the refused request came before anything its
exit forgets. The pages of the parent's regions are its own before the call. -/
theorem fork_failure_iff {E : ForkInput} {w w' : ForkWorld} (hok : AllOk w.queue.cur.vmas)
    (hown : w.k.Owns (vmaSlots w.queue.cur.vmas)) (h : schedForkCall E w = (none, w')) :
    ForkUndone w w' ↔ (forkRefusal w.k w.queue.cur).Harmless w.queue.cur := by
  unfold schedForkCall at h
  split at h
  · rename_i k0 hk
    obtain rfl := congrArg Prod.snd h
    have hstage : forkRefusal w.k w.queue.cur = .early := by rw [forkRefusal, hk]
    rw [hstage]
    exact iff_of_true ⟨rfl, rfl, fun _ => Iff.rfl, (heapStep_kmalloc hk).2⟩ trivial
  dsimp only at h
  split at h
  · rename_i k1 hspace
    obtain rfl := congrArg Prod.snd h
    obtain ⟨-, left, hg, hleft⟩ | ⟨sp, hsp, -⟩ := forkSpace_cases hspace
    · rw [← hleft, ← hg.2.nil_iff]
      refine ⟨fun hu => hu.pages, fun hp => ⟨rfl, rfl, fun b => ?_, hp⟩⟩
      rw [erase_cons_head]
    · cases hsp
  rename_i sp k1 hspace
  obtain ⟨hnone, -⟩ | ⟨sp', hsp, hc, hlater⟩ := forkSpace_cases hspace
  · cases hnone
  cases hsp
  rw [hlater]
  refine iff_of_false (fun hu => ?_) id
  split at h
  · rename_i k2 hfd
    obtain rfl := congrArg Prod.snd h
    exact fork_forgets_tls hok hown hc hfd hu.pages
  · exact absurd (congrArg Prod.fst h) (Option.some_ne_none _)

/-- A machine with one task that was created and runs, whose next requests get the given answers. -/
def forkWorld (gs : List Grant) : ForkWorld :=
  let r := schedCreateTask (Kernel.boot virtCfg) true
  ⟨{ r.2 with grants := gs }, ⟨r.1.getD (newTask 0 0 0 0 0 false), [], []⟩, ⟨fun _ => none, [Fds.fdTableCreate]⟩, []⟩

/-- The blocks for its fork. -/
def forkBlocks : ForkInput := ⟨1, [], 2, 0⟩

lemma schedForkCall_eta {E : ForkInput} {w : ForkWorld} (h : (schedForkCall E w).1 = none) :
    schedForkCall E w = (none, (schedForkCall E w).2) := Prod.ext h rfl

lemma forkWorld_owns (gs : List Grant) (h : (forkWorld gs).queue.cur.vmas = []) :
    AllOk (forkWorld gs).queue.cur.vmas ∧
      (forkWorld gs).k.Owns (vmaSlots (forkWorld gs).queue.cur.vmas) := by
  rw [h]
  exact ⟨forall_mem_nil _, ledger_nil _⟩

/-- The TLS page is refused, but nothing was copied before that the exit forgets. -/
theorem fork_failure_no_tls :
    (schedForkCall forkBlocks (forkWorld (replicate 8 .ok ++ [.fail]))).1 = none ∧
      (ForkUndone (forkWorld (replicate 8 .ok ++ [.fail]))
          (schedForkCall forkBlocks (forkWorld (replicate 8 .ok ++ [.fail]))).2 ↔
        (forkRefusal (forkWorld (replicate 8 .ok ++ [.fail])).k
          (forkWorld (replicate 8 .ok ++ [.fail])).queue.cur).Harmless
            (forkWorld (replicate 8 .ok ++ [.fail])).queue.cur) :=
  have hfail : (schedForkCall forkBlocks (forkWorld (replicate 8 .ok ++ [.fail]))).1 = none := by
    decide +kernel
  have hown := forkWorld_owns (replicate 8 .ok ++ [.fail]) (by decide +kernel)
  ⟨hfail, fork_failure_iff hown.1 hown.2 (schedForkCall_eta hfail)⟩

/-- A page that is in use afterwards, was not before, and did not go into the heap. -/
lemma not_grown_nil (pfn : Nat) (heap : k'.pmm.heap = k.pmm.heap)
    (hafter : k'.pmm.Allocated (pfnToPhys pfn)) (hbefore : k.pmm.bitmap pfn = false) :
    ¬ Kernel.Grown k k' [] := by
  rintro ⟨hs, hheap, ht⟩
  have hnil : hs = [] := append_left_eq_self.mp (hheap.symm.trans heap)
  subst hnil
  rcases (ht.iff _).mp hafter with hx | hx
  · exact not_mem_nil hx
  · obtain ⟨-, -, hset⟩ := (k.pmm.allocated_pfnToPhys pfn).mp hx
    rw [hbefore] at hset
    cases hset

/-- The descriptors cannot be cloned, and the TLS page of the child stays allocated. -/
theorem fork_loses_tls_page : ∃ E w w', AllOk w.queue.cur.vmas ∧
    w.k.Owns (vmaSlots w.queue.cur.vmas) ∧ schedForkCall E w = (none, w') ∧ ¬ ForkUndone w w' := by
  have hown := forkWorld_owns (replicate 10 .ok ++ [.fail]) (by decide +kernel)
  refine ⟨forkBlocks, forkWorld (replicate 10 .ok ++ [.fail]), _, hown.1, hown.2,
    schedForkCall_eta (by decide +kernel), fun h => ?_⟩
  exact not_grown_nil 284 (by decide +kernel)
    ((Pmm.allocated_pfnToPhys _ 284).mpr (by decide +kernel)) (by decide +kernel) h.pages

end FermiOs
