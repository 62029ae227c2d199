import FermiOs.Arch.ExecEntry
import FermiOs.Fs.Descriptors
import FermiOs.Syscall.ExecStack
import FermiOs.System.Ownership

/-!
# What exec leaves behind

`sys_exec` as a whole: the checks of its arguments, the descriptor it opens and closes, and the saved
trap frame, around the core of `Exec.lean`. `sysExecCall_eq` says that nothing but that core decides
the outcome, that the descriptor is gone in the end, and that only a call that succeeds writes the
frame.

From there on the module is about physical pages. A call that fails has given back everything but the
growth of the kernel heap. A call that succeeds frees the old image, with one exception: the pages of
the grown stack drop out of the records without being freed.
-/

namespace FermiOs
open Library List Function

/-! ## The whole call -/

/-- The state a call works on: the memory, the calling task, the descriptor tables, and the kernel
memory that holds the saved trap frame. -/
structure ExecWorld where
  k : Kernel
  task : Task
  fds : Fds.State
  frame : Word → Word

/-- What a call meets: the user memory and the two arguments, the task's descriptor table, the vnode
the path resolves to, the block `kmalloc` has for the open file, what seeking and reading report, the
random bytes, and the address of the trap frame. -/
structure ExecInput where
  mem : UserMem
  path : Nat
  argv : Nat
  table : Nat
  vnode : Option Nat
  block : Nat
  file : ExecFile
  random : List UInt8
  base : Word

/-- The offset of an open file, as `fd_seek` and `fd_read` leave it. -/
def Fds.State.fdMove (s : Fds.State) (f : Nat) (offset : Int) : Fds.State :=
  { s with files := update s.files f ((s.files f).map ({ · with offset := offset })) }

section
variable (E : ExecInput)

/-- The slot `fd_open` is going to use. -/
def ExecInput.slot (s : Fds.State) : Option (Nat × Nat) :=
  match E.vnode with
  | none => none
  | some v => ((s.tables[E.table]?).bind Fds.allocFd).map (v, ·)

/-- `fd_open`: the descriptor, or nothing if the path does not resolve, the table is full or there is
no block for the open file. -/
def ExecInput.fdOpen (w : ExecWorld) : Option Nat × ExecWorld :=
  match E.slot w.fds with
  | none => (none, w)
  | some (v, fd) =>
    match w.k.kmalloc with
    | (false, k) => (none, { w with k := k })
    | (true, k) =>
      (some fd, { w with
        k := k, fds := Fds.fdOpenEx w.fds E.table v E.file.size 0 (some E.block) })

/-- `sys_exec`. -/
def sysExecCall (w : ExecWorld) : Int × ExecWorld :=
  if (userStrOk E.mem E.path).1 < 0 then (-1, w)
  else if w.task.fds = false then (-1, w)
  else
    match captureArgs E.mem E.argv with
    | none => (-1, w)
    | some args =>
      if 1024 < (argBlob args).length then (-1, w)
      else if execStackFits args.length (argBlob args).length = false then (-1, w)
      else
        match E.fdOpen w with
        | (none, w) => (-1, w)
        | (some fd, w) =>
          -- to the end for the size, and back
          let w := { w with fds := (w.fds.fdMove E.block E.file.size).fdMove E.block 0 }
          if E.file.size = 0 ∨ 2 ^ 20 < E.file.size then
            (-1, { w with fds := Fds.fdClose w.fds E.table fd })
          else
            match w.k.kmalloc with
            | (false, k) => (-1, { w with k := k, fds := Fds.fdClose w.fds E.table fd })
            | (true, k) =>
              let read := w.fds.fdMove E.block E.file.data.length
              let w := { w with k := k, fds := Fds.fdClose read E.table fd }
              if E.file.data.length ≠ E.file.size then (-1, w)
              else
                match execSpace w.k E.file.data with
                | (none, k) => (-1, { w with k := k })
                | (some sp, k) =>
                  let t := execTask w.task sp (ttbrPack sp.l0 (schedAsidAlloc k).1)
                  (0, { w with
                    k := execSwitch k w.task sp ⟨some E.file, args, E.random⟩
                    task := t
                    frame := writeFrame E.base (execWrites t.entry args) w.frame })

/-- The core of the call, as far as the descriptors decide about it. -/
def ExecInput.core (s : Fds.State) (args : List (List UInt8)) : ExecCall :=
  ⟨(E.slot s).map fun _ => E.file, args, E.random⟩

end

/-! ## The descriptor is closed again -/

variable {E : ExecInput} {F : List Nat} {fd v : Nat} {k k' : Kernel} {s : Fds.State} {t t' : Task}

lemma Fds.allocFd_empty {t : Fds.Table} (h : Fds.allocFd t = some fd) : t.slots[fd]? = some none := by
  unfold Fds.allocFd at h
  dsimp only at h
  split at h
  · rename_i hlt
    obtain rfl := Option.some.inj h
    have hfound := findIdx_getElem (w := hlt)
    rw [getElem?_eq_getElem hlt, eq_of_beq hfound]
  · cases h

section
variable (E : ExecInput) (s : Fds.State) (fd : Nat) (d : Fds.Description)

/-- The state in which the descriptor is open, whatever the offset. -/
def ExecInput.opened : Fds.State :=
  ⟨update s.files E.block (some d),
    match s.tables[E.table]? with
    | none => s.tables
    | some t => s.tables.set E.table (t.set fd (some E.block))⟩

lemma ExecInput.opened_fdMove
    (offset : Int) : (E.opened s fd d).fdMove E.block offset =
      E.opened s fd { d with offset := offset } := by
  simp only [opened, Fds.State.fdMove, update_self, update_idem, Option.map_some]

end

section
variable (h : E.slot s = some (v, fd))
include h

lemma ExecInput.slot_some : ∃ t, s.tables[E.table]? = some t ∧ Fds.allocFd t = some fd := by
  unfold slot at h
  split at h
  · cases h
  obtain ⟨fd', hbind, heq⟩ := Option.map_eq_some_iff.mp h
  cases heq
  exact Option.bind_eq_some_iff.mp hbind

lemma ExecInput.fdOpenEx_eq : ∃ d, d.refcount = 1 ∧
      Fds.fdOpenEx s E.table v E.file.size 0 (some E.block) = E.opened s fd d := by
  obtain ⟨t, ht, hfd⟩ := E.slot_some h
  refine ⟨⟨v, 0, 0, 1⟩, rfl, ?_⟩
  simp only [Fds.fdOpenEx, opened, ht, hfd]
  rfl

/-- **Closing** what was opened restores the tables. -/
lemma ExecInput.fdClose_opened {d : Fds.Description}
    (hblock : s.files E.block = none) (hd : d.refcount = 1) :
    Fds.fdClose (E.opened s fd d) E.table fd = s := by
  obtain ⟨t, ht, hfd⟩ := E.slot_some h
  have hempty := Fds.allocFd_empty hfd
  obtain ⟨hlt, hslot⟩ := List.getElem?_eq_some_iff.mp hempty
  obtain ⟨hi, hget⟩ := List.getElem?_eq_some_iff.mp ht
  have htables : (E.opened s fd d).tables[E.table]? = some (t.set fd (some E.block)) := by
    simp only [opened, ht]
    rw [getElem?_set_self hi]
  have hset : (t.set fd (some E.block)).slots[fd]? = some (some E.block) := by
    rw [Fds.Table.slots_set, getElem?_set_self hlt]
  have hfiles : Fds.fdRelease (E.opened s fd d).files E.block = s.files := by
    simp only [Fds.fdRelease, opened, update_self, hd, update_idem]
    rw [if_neg (by decide), ← hblock, update_eq_self]
  have hback : ((t.set fd (some E.block)).set fd none) = t := by
    have : (t.slots.set fd (some E.block)).set fd none = t.slots := by
      rw [set_set, ← hslot, set_getElem_self]
    simp only [Fds.Table.set, this]
  simp only [Fds.fdClose, htables, hset, hfiles, hback]
  simp only [opened, ht, set_set]
  rw [← hget, set_getElem_self]

end

/-! ## The whole and its core -/

variable {call : ExecCall} {w : ExecWorld}

/-- **The whole call** ends as its core does. The tables are as before, and only a success writes the
trap frame. -/
lemma sysExecCall_eq {args : List (List UInt8)} (hpath : ¬ (userStrOk E.mem E.path).1 < 0)
    (hcap : captureArgs E.mem E.argv = some args) (hblock : w.fds.files E.block = none) {r : Int}
    (hcore : sysExec w.k w.task (E.core w.fds args) = (r, t, k)) :
    sysExecCall E w = (r, ⟨k, t, w.fds,
      if r = 0 then writeFrame E.base (execWrites t.entry args) w.frame else w.frame⟩) := by
  unfold sysExecCall
  rw [if_neg hpath, hcap]
  -- the core sees the arguments, and the file if a slot is free
  have hargs : (E.core w.fds args).args = args := rfl
  have hfile : (E.core w.fds args).file = (E.slot w.fds).map fun _ => E.file := rfl
  have hrandom : (E.core w.fds args).random = E.random := rfl
  revert hcore hargs hfile hrandom
  generalize E.core w.fds args = call
  intro hcore hargs hfile hrandom
  unfold sysExec at hcore
  rw [hargs, hfile] at hcore
  dsimp only
  split at hcore
  · rename_i hfds
    rw [if_pos hfds]
    cases hcore
    rfl
  rename_i hfds
  rw [if_neg hfds]
  split at hcore
  · rename_i hblob
    rw [if_pos hblob]
    cases hcore
    rfl
  rename_i hblob
  rw [if_neg hblob]
  split_ifs at hcore with hfits
  · rw [if_pos hfits]
    cases hcore
    rfl
  rw [if_neg hfits]
  unfold ExecInput.fdOpen
  cases hslot : E.slot w.fds with
  | none =>
    rw [hslot] at hcore
    cases hcore
    rfl
  | some p =>
    rw [hslot] at hcore hfile
    dsimp only [Option.map_some] at hcore hfile ⊢
    obtain ⟨d, hd, hopen⟩ := E.fdOpenEx_eq hslot
    rcases hk1 : w.k.kmalloc with ⟨_ | _, k1⟩
    · rw [hk1] at hcore
      cases hcore
      rfl
    rw [hk1] at hcore
    dsimp only at hcore ⊢
    simp only [hopen, E.opened_fdMove]
    -- wherever the descriptor is closed, the tables are the old ones
    have hclose := fun o : Int => E.fdClose_opened (d := { d with offset := o }) hslot hblock hd
    by_cases hsize : E.file.size = 0 ∨ 2 ^ 20 < E.file.size
    · rw [if_pos hsize] at hcore ⊢
      cases hcore
      rw [hclose]
      rfl
    rw [if_neg hsize] at hcore ⊢
    rcases hk2 : k1.kmalloc with ⟨_ | _, k2⟩
    · rw [hk2] at hcore
      cases hcore
      rw [hclose]
      rfl
    rw [hk2] at hcore
    dsimp only at hcore ⊢
    rw [hclose]
    by_cases hread : E.file.data.length ≠ E.file.size
    · rw [if_pos hread] at hcore ⊢
      cases hcore
      rfl
    rw [if_neg hread] at hcore ⊢
    rcases hspace : execSpace k2 E.file.data with ⟨_ | sp, k3⟩
    · rw [hspace] at hcore
      cases hcore
      rfl
    rw [hspace] at hcore
    obtain ⟨rfl, rfl, rfl⟩ := hcore
    have hcall : call = ⟨some E.file, args, E.random⟩ := by
      cases call
      simp only at hargs hfile hrandom
      rw [hargs, hfile, hrandom]
    rw [if_pos rfl, hcall]
    rfl

/-! ## Failure -/

/-- Nothing happened, apart from growth of the kernel heap. -/
structure ExecUndone (w w' : ExecWorld) : Prop where
  task : w'.task = w.task
  fds : w'.fds = w.fds
  frame : w'.frame = w.frame
  tables : ∀ l, w.k.pmm.Allocated l → w'.k.tables l = w.k.tables l
  bytes : ∀ p, w.k.pmm.Allocated p → w'.k.frame p = w.k.frame p
  pages : Kernel.Grown w.k w'.k []

lemma ExecUndone.refl (w : ExecWorld) : ExecUndone w w :=
  ⟨rfl, rfl, rfl, fun _ _ => rfl, fun _ _ => rfl, .refl _⟩

/-- **A failed call** leaves the task with its address space, its descriptors and its trap frame, and
gives every page back that did not go into the kernel heap. -/
theorem exec_failure_undone {E : ExecInput} {w w' : ExecWorld} (hblock : w.fds.files E.block = none)
    (h : sysExecCall E w = (-1, w')) : ExecUndone w w' := by
  by_cases hpath : (userStrOk E.mem E.path).1 < 0
  · rw [sysExecCall, if_pos hpath] at h
    obtain rfl := congrArg Prod.snd h
    exact .refl w
  cases hcap : captureArgs E.mem E.argv with
  | none =>
    rw [sysExecCall, if_neg hpath, hcap] at h
    have hw : w' = w := by
      split at h
      · exact (congrArg Prod.snd h).symm
      · exact (congrArg Prod.snd h).symm
    rw [hw]
    exact .refl w
  | some args =>
    rcases hcore : sysExec w.k w.task (E.core w.fds args) with ⟨r, t, k⟩
    rw [sysExecCall_eq hpath hcap hblock hcore] at h
    obtain ⟨rfl, rfl⟩ := Prod.mk.inj h
    obtain ⟨-, rfl, hq, hg⟩ | ⟨hzero, -⟩ := sysExec_cases hcore
    · exact ⟨rfl, rfl, rfl, hq.tables, hq.frame, hg⟩
    · exact absurd hzero (by decide)

/-- A small machine in which the path names a file of four bytes that is no program. -/
def junkInput : ExecInput :=
  ⟨argvMemory 2, 0x2000, 0x1000, 0, some 7, 1, ⟨4, [1, 2, 3, 4]⟩, [], 0⟩

@[inherit_doc junkInput]
def junkWorld : ExecWorld :=
  ⟨Kernel.boot virtCfg, bareTask, ⟨fun _ => none, [Fds.fdTableCreate]⟩, fun _ => 0⟩

lemma sysExecCall_eta (h : (sysExecCall E w).1 = -1) : sysExecCall E w = (-1, (sysExecCall E w).2) := by
  revert h
  exact fun h => Prod.ext h rfl

/-- The descriptor and the buffer are taken, the loader refuses, and everything goes back. -/
theorem exec_failure_junk : (sysExecCall junkInput junkWorld).1 = -1 ∧
    ExecUndone junkWorld (sysExecCall junkInput junkWorld).2 :=
  have hfail : (sysExecCall junkInput junkWorld).1 = -1 := by decide +kernel
  ⟨hfail, exec_failure_undone rfl (sysExecCall_eta hfail)⟩

/-! ## Success -/

section
variable (k : Kernel) (t : Task)

/-- The pages of a task's address space: everything it records but its kernel stack, and its table. -/
def spacePages : List Nat :=
  t.userPages ++ if t.ttbr0 = 0 then [] else k.tablePages t.l0

lemma taskPages_eq : taskPages k t = Task.runPages t.stackPhys taskStackPages ++ spacePages k t := rfl

/-- The old image is freed up to the grown stack. -/
lemma execFreed_perm : (execFreed k t ++ t.grownPages).Perm (spacePages k t) := by
  rw [execFreed, spacePages, Task.userPages]
  grind

end

/-- What a successful call owes to the page allocator: each page of the old space is freed once and is
free; the new records name what the call took; and reaping the task later on leaves allocated what was
allocated without it, up to growth of the kernel heap. -/
structure ExecReturns (k : Kernel) (t : Task) (k' : Kernel) (t' : Task) : Prop where
  freed : (execFreed k t).Perm (spacePages k t)
  gone : ∀ x ∈ spacePages k t, ¬ k'.pmm.Allocated x
  settled : ∃ hs, k'.pmm.heap = hs ++ k.pmm.heap ∧ (spacePages k' t' ++ hs).Nodup ∧
    (∀ x, k'.pmm.Allocated x ↔
      x ∈ spacePages k' t' ∨ x ∈ hs ∨ (k.pmm.Allocated x ∧ x ∉ spacePages k t)) ∧
    ∀ x, (schedFreeTask k' t').pmm.Allocated x ↔
      x ∈ hs ∨ (k.pmm.Allocated x ∧ x ∉ taskPages k t)

section
variable (hown : k.Owns (taskPages k t ++ F))
include hown

/-- What a successful call does to the page allocator. -/
lemma exec_accounts (hcall : sysExec k t call = (0, t', k')) : t'.stackPhys = t.stackPhys ∧
      ∃ hs, k'.pmm.heap = hs ++ k.pmm.heap ∧ (spacePages k' t' ++ hs).Nodup ∧
        (∀ x ∈ spacePages k' t' ++ hs, ¬ k.pmm.Allocated x) ∧
        ∀ x, k'.pmm.Allocated x ↔
          x ∈ spacePages k' t' ∨ x ∈ hs ∨ (k.pmm.Allocated x ∧ x ∉ execFreed k t) := by
  obtain ⟨f, sp, k1, hr, rfl, rfl⟩ := sysExec_reached hcall
  have hb := hr.ready.built
  obtain ⟨hs, heap, ht⟩ := hb.took
  obtain ⟨frame, next, tlb, -, -, heq⟩ := execSwitch_eq k1 t sp call
  have hpmm : (execSwitch k1 t sp call).pmm = k1.pmm.freeList (execFreed k1 t) := by
    rw [execSwitch, heq]
  -- the old table is as it was when its pages are counted
  have hfreed : execFreed k1 t = execFreed k t := by
    rw [execFreed, execFreed, tables_of_root hown hb.tables_allocated]
  have hne : (execTask t sp (ttbrPack sp.l0 (schedAsidAlloc k1).1)).ttbr0 ≠ 0 :=
    ttbrPack_ne_zero hb.taken_l0.bounds.2.2 hb.taken_l0.ne_zero
  have hspace : (spacePages (execSwitch k1 t sp call)
      (execTask t sp (ttbrPack sp.l0 (schedAsidAlloc k1).1))).Perm
      (k1.tablePages sp.l0 ++ (pagesFrom sp.tls 1 ++ (regionPages sp.img.regions ++
        pagesFrom sp.stack userStackPages))) := by
    rw [spacePages, if_neg hne, hr.l0_eq, execTask_userPages hr.ready.phys_ne, Kernel.tablePages,
      (execSwitch_tables k1 t sp call).1, ← Kernel.tablePages]
    grind
  have ht := ht.perm (hspace.symm.append_right hs)
  refine ⟨execTask_stackPhys t sp _, hs, ?_, ht.nodup, ht.fresh, fun x => ?_⟩
  · rw [hpmm, Pmm.freeList_heap]
    exact heap
  rw [hpmm, Pmm.freeList_given k1.pmm (execFreed k1 t) x, hfreed, ht.iff, mem_append, or_assoc]
  -- what was taken is not among what is freed
  have hold : ∀ y ∈ execFreed k t, k.pmm.Allocated y := fun y hy =>
    hown.2 y (mem_append_left F (mem_append_right _
      ((execFreed_perm k t).mem_iff.mp (mem_append_left _ hy))))
  have hnew := ht.fresh x
  rw [mem_append] at hnew
  constructor
  · rintro ⟨h | h | h, hx⟩
    · exact .inl h
    · exact .inr (.inl h)
    · exact .inr (.inr ⟨h, hx⟩)
  · rintro (h | h | ⟨h, hx⟩)
    · exact ⟨.inl h, fun hx => hnew (.inl h) (hold x hx)⟩
    · exact ⟨.inr (.inl h), fun hx => hnew (.inr h) (hold x hx)⟩
    · exact ⟨.inr (.inr h), hx⟩

/-- Reaping the task after a call whose new pages are all recorded. -/
lemma reap_after_exec {hs : List Nat}
    (hstack : t'.stackPhys = t.stackPhys) (hnd : (spacePages k' t' ++ hs).Nodup)
    (hfresh : ∀ x ∈ spacePages k' t' ++ hs, ¬ k.pmm.Allocated x) (hiff : ∀ x, k'.pmm.Allocated x ↔
      x ∈ spacePages k' t' ∨ x ∈ hs ∨ (k.pmm.Allocated x ∧ x ∉ spacePages k t)) (x : Nat) :
    (schedFreeTask k' t').pmm.Allocated x ↔ x ∈ hs ∨ (k.pmm.Allocated x ∧ x ∉ taskPages k t) := by
  obtain ⟨tlb, -, heq⟩ := schedFreeTask_eq k' t'
  have hpmm : (schedFreeTask k' t').pmm = k'.pmm.freeList (taskPages k' t') := by rw [heq]
  rw [hpmm, Pmm.freeList_given k'.pmm (taskPages k' t') x, hiff, taskPages_eq, taskPages_eq, hstack,
    mem_append, mem_append, not_or, not_or]
  have hkernel : x ∈ Task.runPages t.stackPhys taskStackPages → k.pmm.Allocated x := fun hx =>
    hown.2 x (mem_append_left F (mem_append_left _ hx))
  have hnew := hfresh x
  have hapart := (nodup_append.mp hnd).2.2 x
  rw [mem_append] at hnew
  constructor
  · rintro ⟨h | h | ⟨h, hx⟩, hk, hn⟩
    · exact absurd h hn
    · exact .inl h
    · exact .inr ⟨h, hk, hx⟩
  · rintro (h | ⟨h, hk, hx⟩)
    · exact ⟨.inr (.inl h), fun hk => hnew (.inr h) (hkernel hk), fun hn => hapart hn x h rfl⟩
    · exact ⟨.inr (.inr ⟨h, hx⟩), hk, fun hn => hnew (.inl hn) h⟩

/-- A successful call returns the old image exactly when no stack page had been grown. -/
lemma execReturns_iff (hcall : sysExec k t call = (0, t', k')) :
    ExecReturns k t k' t' ↔ t.grownPages = [] := by
  obtain ⟨hstack, hs, heap, hnd, hfresh, hiff⟩ := exec_accounts hown hcall
  have hperm := execFreed_perm k t
  have hspace : (spacePages k t).Nodup := (nodup_append.mp (nodup_append.mp hown.1).1).2.1
  constructor
  · intro h
    refine eq_nil_iff_forall_not_mem.mpr fun x hx => ?_
    -- a grown page stays allocated
    have hmem : x ∈ spacePages k t := hperm.mem_iff.mp (mem_append_right _ hx)
    have halloc : k.pmm.Allocated x := hown.2 x (mem_append_left F (mem_append_right _ hmem))
    have hkept : x ∉ execFreed k t := fun hf =>
      (nodup_append.mp (hperm.nodup_iff.mpr hspace)).2.2 x hf x hx rfl
    exact h.gone x hmem ((hiff x).mpr (.inr (.inr ⟨halloc, hkept⟩)))
  intro hnil
  rw [hnil, append_nil] at hperm
  have hiff' : ∀ x, k'.pmm.Allocated x ↔
      x ∈ spacePages k' t' ∨ x ∈ hs ∨ (k.pmm.Allocated x ∧ x ∉ spacePages k t) := by
    intro x
    rw [hiff x, hperm.mem_iff]
  refine ⟨hperm, fun x hx hx' => ?_, hs, heap, hnd, hiff', reap_after_exec hown hstack hnd hfresh hiff'⟩
  have halloc : k.pmm.Allocated x := hown.2 x (mem_append_left F (mem_append_right _ hx))
  have hnew := hfresh x
  rw [mem_append] at hnew
  obtain h | h | ⟨-, h⟩ := (hiff' x).mp hx'
  · exact hnew (.inl h) halloc
  · exact hnew (.inr h) halloc
  · exact h hx

end

namespace Sys

/-- **Every successful exec** of a run whose forks copy the regions completely returns the old image
to the page allocator exactly when the task had no grown stack page. -/
theorem exec_returns_iff {s : Sys} (h : Reach Boot (fun s a => s.Allowed a.2 ∧ s.ForksCopy a) step s)
    (gs : List Grant) {call : ExecCall} {t' : Task} {k' : Kernel}
    (hcall : sysExec (s.answering gs).k s.queue.cur call = (0, t', k')) :
    ExecReturns (s.answering gs).k s.queue.cur k' t' ↔ s.queue.cur.grownPages = [] := by
  obtain ⟨b, hb⟩ := reach_owned h
  have hans : (s.answering gs).Owned b := ⟨hb.pages, hb.ok, hb.asid⟩
  exact execReturns_iff hans.front hcall

/-- A user task that has the processor. -/
def freshRun : List (List Grant × SysOp) := [([], .create true), ([], .yield)]

/-- The same task after it pushed something onto a full stack. -/
def grownRun : List (List Grant × SysOp) :=
  freshRun ++ [([], .call (.access (stackInitialLo - 8) (.store 1)))]

theorem exec_returns_fresh :
    (sysExec ((freshRun.foldl step smallBoot).answering []).k (freshRun.foldl step smallBoot).queue.cur
      textOnlyCall).1 = 0 ∧
    (ExecReturns ((freshRun.foldl step smallBoot).answering []).k
        (freshRun.foldl step smallBoot).queue.cur
        (sysExec ((freshRun.foldl step smallBoot).answering []).k
          (freshRun.foldl step smallBoot).queue.cur textOnlyCall).2.2
        (sysExec ((freshRun.foldl step smallBoot).answering []).k
          (freshRun.foldl step smallBoot).queue.cur textOnlyCall).2.1 ↔
      (freshRun.foldl step smallBoot).queue.cur.grownPages = []) :=
  have hzero : (sysExec ((freshRun.foldl step smallBoot).answering []).k
      (freshRun.foldl step smallBoot).queue.cur textOnlyCall).1 = 0 := by decide +kernel
  ⟨hzero, exec_returns_iff (reach_small freshRun (by decide +kernel)) [] (sysExec_eta hzero)⟩

/-- The grown page is still marked in use after the exec, and no record names it any more. -/
theorem exec_loses_grown_stack : ∃ s, Reach Boot (fun s a => s.Allowed a.2) step s ∧
    ∃ t' k', sysExec s.k s.queue.cur textOnlyCall = (0, t', k') ∧ ¬ ExecReturns s.k s.queue.cur k' t' := by
  refine ⟨_, reach_small grownRun (by decide +kernel), _, _, sysExec_eta (by decide +kernel), ?_⟩
  intro h
  refine h.gone (pfnToPhys 17) (by decide +kernel) ?_
  exact (Pmm.allocated_pfnToPhys _ 17).mpr (by decide +kernel)

end Sys
end FermiOs
