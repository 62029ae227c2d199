import FermiOs.Sched.Task

/-!
# Memory system calls

`sys_mmap`, `sys_munmap`, `sys_mprotect` and `sys_brk` of `syscall/syscall.c`, as functions of the
kernel state and the calling task that return the value in `x0`. Arguments are 64-bit words.
-/

namespace FermiOs
open Library List
variable {err flags : Nat}

/-- `EINVAL`. -/
def eInval : Nat := 22

/-- `ENOMEM`. -/
def eNoMem : Nat := 12

/-- `EOPNOTSUPP`. -/
def eOpNotSupp : Nat := 95

/-- Byte `i` of a 32-bit little-endian store. -/
def byteOf (n i : Nat) : UInt8 := UInt8.ofNat (n / 256 ^ i)

/-- `*task_errno_slot(t) = err`: four bytes at the start of the TLS page. -/
def setErrno (k : Kernel) (t : Task) (err : Nat) : Kernel :=
  if t.tlsPhys = 0 then k
  else
    { k with frame := fun p off =>
        if p = t.tlsPhys ∧ off < 4 then byteOf err off else k.frame p off }

/-- `fail`: record the error, return `-1`. -/
def fail (k : Kernel) (t : Task) (err : Nat) : Int × Task × Kernel := (-1, t, setErrno k t err)

/-- `MAP_SHARED`, `MAP_FIXED` and `MAP_ANONYMOUS` in a flags word. -/
def mapShared (flags : Nat) : Bool := flags.testBit 0

@[inherit_doc mapShared]
def mapFixed (flags : Nat) : Bool := flags.testBit 4

@[inherit_doc mapShared]
def mapAnonymous (flags : Nat) : Bool := flags.testBit 5

/-- `mmap_range_ok`. -/
def mmapRangeOk (start end_ : Nat) : Bool := decide (start < end_ ∧ end_ ≤ userVaTop)

/-- The search loop of `mmap_find_free`; each hit ends at or before the next candidate, so one
iteration per region and a last one are enough. -/
def mmapSearch (set : VmaSet) (len : Nat) : Nat → Nat → Nat
  | 0, _ => 0
  | fuel + 1, candidate =>
    if add64 candidate len ≤ userVaTop then
      match vmaFindOverlap set candidate (add64 candidate len) with
      | none => candidate
      | some hit => mmapSearch set len fuel (pageAlignUp hit.end_)
    else 0

/-- `mmap_find_free`. -/
def mmapFindFree (set : VmaSet) (len : Nat) : Nat := mmapSearch set len (set.length + 1) userMmapBase

/-- Where `sys_mmap` wants the region, or the error it reports. -/
def mmapPlace (set : VmaSet) (addr length flags : Nat) : Except Nat (Nat × Nat) :=
  if mapFixed flags then
    if addr % 4096 ≠ 0 then .error eInval
    else
      let end_ := add64 addr length
      if !mmapRangeOk addr end_ then .error eInval
      else if (vmaFindOverlap set addr end_).isSome then .error eInval
      else .ok (addr, end_)
  else
    let want := pageAlignUp length
    if want < length then .error eNoMem
    else
      let start := mmapFindFree set want
      if start = 0 then .error eNoMem
      else
        let end_ := add64 start want
        if !mmapRangeOk start end_ then .error eNoMem
        else .ok (start, end_)

/-- `sys_mmap`. -/
def sysMmap (k : Kernel) (t : Task) (addr length prot flags fd offset : Nat) :
    Int × Task × Kernel :=
  if t.ttbr0 = 0 then fail k t eInval
  else if 8 ≤ prot then fail k t eInval
  else if mapShared flags then fail k t eOpNotSupp
  else if !mapAnonymous flags then fail k t eOpNotSupp
  else if offset ≠ 0 ∨ fd ≠ 2 ^ 64 - 1 then fail k t eInval
  else if length = 0 then fail k t eInval
  else
    match mmapPlace t.vmas addr length flags with
    | .error err => fail k t err
    | .ok (start, end_) =>
      match vmaAdd k t.vmas start end_ prot (vmaAnonymous + vmaShared) with
      | (none, k) => fail k t eNoMem
      | (some vmas, k) => (start, { t with vmas := vmas }, k)

/-- The page-rounded end of a `munmap` or `mprotect` range; `none` when it is refused. -/
def rangeEnd (addr length : Nat) : Option Nat :=
  if userVaTop < length ∨ userVaTop - length < addr then none
  else
    let end_ := pageAlignDown (addr + length - 1) + 4096
    if userVaTop < end_ then none else some end_

section
variable (k : Kernel) (t : Task) (addr length : Nat)

/-- `sys_munmap`. -/
def sysMunmap : Int × Task × Kernel :=
  if t.ttbr0 = 0 then fail k t eInval
  else if addr % 4096 ≠ 0 ∨ length = 0 then fail k t eInval
  else if addr = 0 then (0, t, k)
  else
    match rangeEnd addr length with
    | none => fail k t eInval
    | some end_ =>
      match vmaUnmapRange k t.vmas addr end_ with
      | (none, vmas, k) => fail k { t with vmas := vmas } eNoMem
      | (some _, vmas, k) =>
        (0, { t with vmas := vmas }, k.mmuUnmapUserRange t.l0 addr ((end_ - addr) / 4096))

/-- `sys_mprotect`. -/
def sysMprotect (prot : Nat) : Int × Task × Kernel :=
  if t.ttbr0 = 0 then fail k t eInval
  else if addr % 4096 ≠ 0 ∨ length = 0 then fail k t eInval
  else if 8 ≤ prot then fail k t eInval
  else if addr = 0 then (0, t, k)
  else
    match rangeEnd addr length with
    | none => fail k t eInval
    | some end_ =>
      match vmaProtectRange k t.vmas addr end_ prot with
      | (none, vmas, k) => fail k { t with vmas := vmas } eNoMem
      | (some _, vmas, k) =>
        (0, { t with vmas := vmas },
          (k.mmuProtectUserRange t.l0 addr ((end_ - addr) / 4096) (mmuProtToFlags prot)).2)

end

/-- The region `sys_brk` leaves when it grows `v` in place up to `newEnd`. -/
def Vma.growTo (v : Vma) (newEnd : Nat) : Vma :=
  { v with
    end_ := newEnd
    pages := v.pages.take v.npages ++ replicate ((newEnd - v.end_) / 4096) 0 }

/-- Highest break of a task. -/
def brkLimit (t : Task) : Nat := t.brkBase + userBrkReservePages * 4096

/-- `sys_brk`. -/
def sysBrk (k : Kernel) (t : Task) (addr : Nat) : Int × Task × Kernel :=
  if t.ttbr0 = 0 then (t.brkCur, t, k)
  else if addr = 0 then (t.brkCur, t, k)
  else if addr < t.brkBase ∨ brkLimit t < addr then (t.brkCur, t, k)
  else if addr < t.brkCur then (t.brkCur, t, k)
  else
    let newEnd := pageAlignUp addr
    match vmaFind t.vmas t.brkCur with
    | none =>
      if t.brkBase < newEnd then
        -- the result of `vma_add` is not looked at: the break moves even when it fails
        match vmaAdd k t.vmas t.brkBase newEnd 3 vmaAnonymous with
        | (none, k) => (addr, { t with brkCur := addr }, k)
        | (some vmas, k) => (addr, { t with vmas := vmas, brkCur := addr }, k)
      else (addr, { t with brkCur := addr }, k)
    | some v =>
      if v.end_ < newEnd then
        match k.kmalloc with
        | (false, k) => (t.brkCur, t, k)
        | (true, k) =>
          -- no check against the regions above `v.end_`
          (addr, { t with vmas := vmaModify t.vmas t.brkCur (·.growTo newEnd), brkCur := addr }, k)
      else (addr, { t with brkCur := addr }, k)

/-! ## What a call can do

One inversion lemma per call: the call changes nothing but heap and errno (and, for `munmap` and
`mprotect`, how the set is cut), or it does the one thing it is for. -/

/-- The codes a failing call may store. -/
def IsCode (err : Nat) : Prop := 0 < err ∧ err < 2 ^ 32
deriving Decidable

/-- At most the errno word of the task is stored. -/
def ErrnoStep (t : Task) (k k' : Kernel) : Prop := k' = k ∨ ∃ err, k' = setErrno k t err

variable {addr c end_ fuel length prot : Nat} {k k' : Kernel} {r : Int} {set : VmaSet} {t t' : Task}
  {v : Vma}

lemma ErrnoStep.pmm (h : ErrnoStep t k k') :
    ∃ frame, (∀ p, p ≠ t.tlsPhys → frame p = k.frame p) ∧ k' = { k with frame := frame } := by
  rcases h with rfl | ⟨err, rfl⟩
  · exact ⟨k'.frame, fun _ _ => rfl, rfl⟩
  unfold setErrno
  split
  · exact ⟨k.frame, fun _ _ => rfl, rfl⟩
  · refine ⟨_, fun p hp => ?_, rfl⟩
    funext off
    simp [hp]

/-- A region as `vma_add` creates it. -/
def freshVma (start end_ prot flags : Nat) : Vma where
  start := start
  end_ := end_
  prot := prot
  flags := flags
  pages := replicate ((end_ - start) / 4096) 0

lemma vmaOk_freshVma {start : Nat} (prot flags : Nat) (hs : start % 4096 = 0)
    (he : end_ % 4096 = 0) (hlt : start < end_) : VmaOk (freshVma start end_ prot flags) :=
  ⟨hs, he, hlt, by simp [freshVma, Vma.npages]⟩

@[simp] lemma slots_freshVma (start end_ prot flags : Nat) :
    (freshVma start end_ prot flags).slots = [] := by
  simp only [Vma.slots, freshVma, filter_eq_nil_iff]
  intro a ha
  have := eq_of_mem_replicate (mem_of_mem_take ha)
  simp [this]

lemma slot_freshVma (start end_ prot flags va : Nat) :
    (freshVma start end_ prot flags).slot va = 0 := by
  simp only [Vma.slot, freshVma, getD_eq_getElem?_getD, getElem?_replicate]
  split <;> rfl

/-- The checks of `vma_add`. -/
structure AddOk (set : VmaSet) (start end_ : Nat) : Prop where
  lt : start < end_
  start_aligned : start % 4096 = 0
  end_aligned : end_ % 4096 = 0
  room : set.length < vmaMaxPerTask
  apart : ∀ v ∈ set, v.end_ ≤ start ∨ end_ ≤ v.start
  short : (end_ - start) / 4096 ≤ 2 ^ 20

section
variable {start : Nat}

lemma AddOk.fresh (h : AddOk set start end_) (prot flags : Nat) :
    VmaOk (freshVma start end_ prot flags) :=
  vmaOk_freshVma prot flags h.start_aligned h.end_aligned h.lt

/-- `vma_find_overlap` finds nothing. -/
lemma overlap_isSome : (vmaFindOverlap set start end_).isSome = true ↔
    ¬ ∀ v ∈ set, v.end_ ≤ start ∨ end_ ≤ v.start := by
  rw [Option.isSome_iff_ne_none, ne_eq, not_iff_not]
  simp only [vmaFindOverlap, find?_eq_none, decide_eq_true_eq]
  refine forall₂_congr fun v _ => ?_
  omega

/-- After the checks it is up to the page array. -/
lemma vmaAdd_ok (k : Kernel) (prot flags : Nat) (h : AddOk set start end_) :
    vmaAdd k set start end_ prot flags =
      (if k.kmalloc.1 then some (vmaInsertSorted set (freshVma start end_ prot flags)) else none,
        k.kmalloc.2) := by
  obtain ⟨hlt, hs, he, hroom, hapart, hshort⟩ := h
  unfold vmaAdd
  rw [if_neg (by omega), if_neg (by omega), if_neg (by omega),
    if_neg (overlap_isSome.not.mpr (not_not.mpr hapart))]
  dsimp only
  rw [if_neg (by omega)]
  rcases k.kmalloc with ⟨_ | _, k1⟩ <;> rfl

lemma vmaAdd_not_ok (h : ¬ AddOk set start end_) : vmaAdd k set start end_ prot flags = (none, k) := by
  unfold vmaAdd
  split
  · rfl
  split
  · rfl
  split
  · rfl
  split
  · rfl
  rename_i hov
  dsimp only
  split
  · rfl
  · exact absurd ⟨by omega, by omega, by omega, by omega, not_not.mp (overlap_isSome.not.mp hov),
      by omega⟩ h

lemma vmaAdd_heapStep {r : Option VmaSet} (h : vmaAdd k set start end_ prot flags = (r, k')) :
    HeapStep k k' := by
  by_cases hok : AddOk set start end_
  · rw [vmaAdd_ok k prot flags hok] at h
    cases h
    exact heapStep_kmalloc rfl
  · rw [vmaAdd_not_ok hok] at h
    cases h
    exact .refl k

/-- A region that was added. -/
lemma vmaAdd_some {set' : VmaSet} (h : vmaAdd k set start end_ prot flags = (some set', k')) :
    AddOk set start end_ ∧ set' = vmaInsertSorted set (freshVma start end_ prot flags) := by
  by_cases hok : AddOk set start end_
  · rw [vmaAdd_ok k prot flags hok] at h
    obtain ⟨hset, -⟩ := Prod.mk.inj h
    split at hset
    · exact ⟨hok, (Option.some.inj hset).symm⟩
    · cases hset
  · rw [vmaAdd_not_ok hok] at h
    cases h

end

/-- Range arithmetic of `munmap` and `mprotect`. -/
lemma rangeEnd_some (h : rangeEnd addr length = some end_) (hal : addr % 4096 = 0) (hlen : length ≠ 0) :
    end_ % 4096 = 0 ∧ addr < end_ ∧ end_ ≤ userVaTop := by
  unfold rangeEnd at h
  split at h
  · cases h
  dsimp only at h
  split at h
  · cases h
  · cases h
    simp only [pageAlignDown] at *
    omega

lemma mmapPlace_error (h : mmapPlace set addr length flags = .error err) : IsCode err := by
  unfold mmapPlace at h
  dsimp only at h
  repeat' split at h
  all_goals
    cases h
    try decide

lemma sysMmap_cases {fd offset : Nat} (h : sysMmap k t addr length prot flags fd offset = (r, t', k')) :
    (r = -1 ∧ t' = t ∧ ∃ k1, HeapStep k k1 ∧ ∃ err, IsCode err ∧ k' = setErrno k1 t err) ∨
      ∃ start end_ set, t.ttbr0 ≠ 0 ∧ prot < 8 ∧
        mmapPlace t.vmas addr length flags = .ok (start, end_) ∧
        vmaAdd k t.vmas start end_ prot (vmaAnonymous + vmaShared) = (some set, k') ∧
        r = start ∧ t' = { t with vmas := set } := by
  have hfail : ∀ err, fail k t err = (r, t', k') → IsCode err →
      r = -1 ∧ t' = t ∧ ∃ k1, HeapStep k k1 ∧ ∃ err, IsCode err ∧ k' = setErrno k1 t err := by
    intro err h he
    cases h
    exact ⟨rfl, rfl, k, .refl _, err, he, rfl⟩
  unfold sysMmap at h
  split at h
  · exact .inl (hfail _ h (by decide))
  split at h
  · exact .inl (hfail _ h (by decide))
  split at h
  · exact .inl (hfail _ h (by decide))
  split at h
  · exact .inl (hfail _ h (by decide))
  split at h
  · exact .inl (hfail _ h (by decide))
  split at h
  · exact .inl (hfail _ h (by decide))
  split at h
  · rename_i hplace
    exact .inl (hfail _ h (mmapPlace_error hplace))
  rename_i hprot _ _ _ _ start end_ hplace
  split at h
  · rename_i k1 hadd
    cases h
    exact .inl ⟨rfl, rfl, k1, vmaAdd_heapStep hadd, eNoMem, by decide, rfl⟩
  · rename_i vmas k1 hadd
    cases h
    exact .inr ⟨start, end_, vmas, by assumption, by omega, hplace, hadd, rfl, rfl⟩

/-- Nothing but the heap, the errno word and the cuts of the set changes. -/
def OnlyCut (k : Kernel) (t : Task) (r : Int) (t' : Task) (k' : Kernel) : Prop :=
  ∃ set k1, HeapStep k k1 ∧ Recut t.vmas set ∧ t' = { t with vmas := set } ∧
    (r = 0 ∧ k' = k1 ∨ r = -1 ∧ ∃ err, IsCode err ∧ k' = setErrno k1 t err)

lemma onlyCut_fail (h : fail k t err = (r, t', k')) (he : IsCode err) : OnlyCut k t r t' k' := by
  cases h
  exact ⟨t.vmas, k, .refl _, .refl _, rfl, .inr ⟨rfl, err, he, rfl⟩⟩

lemma sysMunmap_cases (h : sysMunmap k t addr length = (r, t', k')) : OnlyCut k t r t' k' ∨
      ∃ end_ n set k1, t.ttbr0 ≠ 0 ∧ addr % 4096 = 0 ∧ length ≠ 0 ∧ rangeEnd addr length = some end_ ∧
        vmaUnmapRange k t.vmas addr end_ = (some n, set, k1) ∧ r = 0 ∧
        t' = { t with vmas := set } ∧
        k' = k1.mmuUnmapUserRange t.l0 addr ((end_ - addr) / 4096) := by
  unfold sysMunmap at h
  split at h
  · exact .inl (onlyCut_fail h (by decide))
  split at h
  · exact .inl (onlyCut_fail h (by decide))
  split at h
  · cases h
    exact .inl ⟨t.vmas, _, .refl _, .refl _, rfl, .inl ⟨rfl, rfl⟩⟩
  split at h
  · exact .inl (onlyCut_fail h (by decide))
  rename_i hal _ _ end_ hend
  split at h
  · -- a split failed: the set may have been cut, no page was released
    rename_i vmas k1 hun
    cases h
    obtain ⟨-, hs, hcut⟩ | ⟨_, _, _, _, _, hr, _⟩ := vmaUnmapRange_cases hun
    · exact .inl ⟨vmas, k1, hs, hcut, rfl, .inr ⟨rfl, eNoMem, by decide, rfl⟩⟩
    · cases hr
  · rename_i n vmas k1 hun
    cases h
    exact .inr ⟨end_, n, vmas, k1, by assumption, by omega, by omega, hend, hun, rfl, rfl, rfl⟩

lemma sysMprotect_cases (h : sysMprotect k t addr length prot = (r, t', k')) : OnlyCut k t r t' k' ∨
      ∃ end_ n set k1, t.ttbr0 ≠ 0 ∧ addr % 4096 = 0 ∧ length ≠ 0 ∧ prot < 8 ∧
        rangeEnd addr length = some end_ ∧
        vmaProtectRange k t.vmas addr end_ prot = (some n, set, k1) ∧ r = 0 ∧
        t' = { t with vmas := set } ∧
        k' = (k1.mmuProtectUserRange t.l0 addr ((end_ - addr) / 4096) (mmuProtToFlags prot)).2 := by
  unfold sysMprotect at h
  split at h
  · exact .inl (onlyCut_fail h (by decide))
  split at h
  · exact .inl (onlyCut_fail h (by decide))
  split at h
  · exact .inl (onlyCut_fail h (by decide))
  split at h
  · cases h
    exact .inl ⟨t.vmas, _, .refl _, .refl _, rfl, .inl ⟨rfl, rfl⟩⟩
  split at h
  · exact .inl (onlyCut_fail h (by decide))
  rename_i hal hprot _ _ end_ hend
  split at h
  · rename_i vmas k1 hpr
    cases h
    obtain ⟨hs, ⟨-, hcut⟩ | ⟨_, _, _, _, hr, _⟩⟩ := vmaProtectRange_cases hpr
    · exact .inl ⟨vmas, k1, hs, hcut, rfl, .inr ⟨rfl, eNoMem, by decide, rfl⟩⟩
    · cases hr
  · rename_i n vmas k1 hpr
    cases h
    exact .inr ⟨end_, n, vmas, k1, by assumption, by omega, by omega, by omega, hend, hpr, rfl,
      rfl, rfl⟩

/-- The requests `sys_brk` acts on: not a query, inside the arena, not below the break. -/
def BrkAccepted (t : Task) (addr : Nat) : Prop :=
  t.ttbr0 ≠ 0 ∧ addr ≠ 0 ∧ t.brkBase ≤ addr ∧ addr ≤ brkLimit t ∧ t.brkCur ≤ addr
deriving Decidable

/-- An accepted `brk` grows a region in place: the one at the break ends below the new break and the
larger array is granted. -/
def BrkExtends (k : Kernel) (t : Task) (addr : Nat) (v : Vma) : Prop :=
  BrkAccepted t addr ∧ vmaFind t.vmas t.brkCur = some v ∧ v.end_ < pageAlignUp addr ∧
    k.kmalloc.1 = true

/-- What an accepted `brk` does to the task. Without a region at the break, `vma_add` from the base is
tried and the break moves anyway; when the larger array is denied nothing changes. -/
lemma sysBrk_task (h : BrkAccepted t addr) : (sysBrk k t addr).2.1 =
      match vmaFind t.vmas t.brkCur with
      | none =>
        { t with
          vmas := if t.brkBase < pageAlignUp addr then
            (vmaAdd k t.vmas t.brkBase (pageAlignUp addr) 3 vmaAnonymous).1.getD t.vmas else t.vmas
          brkCur := addr }
      | some v =>
        if pageAlignUp addr ≤ v.end_ then { t with brkCur := addr }
        else if k.kmalloc.1 then
          { t with
            vmas := vmaModify t.vmas t.brkCur (·.growTo (pageAlignUp addr))
            brkCur := addr }
        else t := by
  obtain ⟨h0, h1, h2, h3, h4⟩ := h
  unfold sysBrk
  rw [if_neg h0, if_neg h1, if_neg (by omega), if_neg (by omega)]
  dsimp only
  cases vmaFind t.vmas t.brkCur with
  | none =>
    dsimp only
    split
    · rcases vmaAdd k t.vmas t.brkBase (pageAlignUp addr) 3 vmaAnonymous with ⟨_ | set, k1⟩ <;> rfl
    · rfl
  | some v =>
    dsimp only
    by_cases hle : pageAlignUp addr ≤ v.end_
    · rw [if_neg (not_lt.mpr hle), if_pos hle]
    · rw [if_pos (not_le.mp hle), if_neg hle]
      rcases k.kmalloc with ⟨_ | _, k1⟩ <;> rfl

/-- An extending `brk` replaces the region at the break. -/
lemma sysBrk_of_extends (h : BrkExtends k t addr v) : (sysBrk k t addr).2.1 = { t with
        vmas := vmaModify t.vmas t.brkCur (·.growTo (pageAlignUp addr))
        brkCur := addr } := by
  obtain ⟨hacc, hfind, hlt, hk⟩ := h
  rw [sysBrk_task hacc, hfind]
  exact (if_neg (not_le.mpr hlt)).trans (if_pos hk)

lemma sysBrk_cases (h : sysBrk k t addr = (r, t', k')) : HeapStep k k' ∧ (t' = t ∨ (BrkAccepted t addr ∧
      ∃ set, t' = { t with vmas := set, brkCur := addr } ∧ (set = t.vmas ∨
        (vmaFind t.vmas t.brkCur = none ∧
          vmaAdd k t.vmas t.brkBase (pageAlignUp addr) 3 vmaAnonymous = (some set, k')) ∨
        ∃ v, BrkExtends k t addr v ∧
          set = vmaModify t.vmas t.brkCur (·.growTo (pageAlignUp addr))))) := by
  unfold sysBrk at h
  split at h
  · cases h
    exact ⟨.refl _, .inl rfl⟩
  split at h
  · cases h
    exact ⟨.refl _, .inl rfl⟩
  split at h
  · cases h
    exact ⟨.refl _, .inl rfl⟩
  split at h
  · cases h
    exact ⟨.refl _, .inl rfl⟩
  rename_i h0 h1 h2 h3
  have hacc : BrkAccepted t addr := ⟨h0, h1, by omega, by omega, by omega⟩
  dsimp only at h
  split at h
  · rename_i hfind
    split at h
    · split at h
      · rename_i k1 hadd
        cases h
        exact ⟨vmaAdd_heapStep hadd, .inr ⟨hacc, t.vmas, rfl, .inl rfl⟩⟩
      · rename_i set k1 hadd
        cases h
        exact ⟨vmaAdd_heapStep hadd, .inr ⟨hacc, set, rfl, .inr (.inl ⟨hfind, hadd⟩)⟩⟩
    · cases h
      exact ⟨.refl _, .inr ⟨hacc, t.vmas, rfl, .inl rfl⟩⟩
  rename_i v hfind
  split_ifs at h with hlt
  · split at h
    · rename_i k1 hk
      cases h
      exact ⟨heapStep_kmalloc hk, .inl rfl⟩
    · rename_i k1 hk
      cases h
      exact ⟨heapStep_kmalloc hk, .inr ⟨hacc, _, rfl,
        .inr (.inr ⟨v, ⟨hacc, hfind, hlt, by rw [hk]⟩, rfl⟩)⟩⟩
  · cases h
    exact ⟨.refl _, .inr ⟨hacc, t.vmas, rfl, .inl rfl⟩⟩

/-! ## The address search -/

lemma le_pageAlignUp {a : Nat} (h : a ≤ userVaTop) : a ≤ pageAlignUp a := by
  simp only [userVaTop] at h
  rw [pageAlignUp_of_lt (by omega)]
  omega

/-- Regions that still end above a candidate. -/
def above (set : VmaSet) (c : Nat) : VmaSet := set.filter fun v => decide (c < v.end_)

/-- Passing a blocking region leaves fewer regions to pass. -/
lemma above_length_lt {c' : Nat} (hv : v ∈ set) (hc : c < v.end_) (hc' : v.end_ ≤ c') :
    (above set c').length < (above set c).length := by
  have hsub : (above set c').Sublist (above set c) := by
    have h : above set c' = (above set c).filter fun v => decide (c' < v.end_) := by
      simp only [above, filter_filter]
      refine filter_congr fun x _ => ?_
      simp only [Bool.and_eq_decide, decide_eq_true_eq, decide_eq_decide]
      omega
    rw [h]
    exact filter_sublist
  refine lt_of_le_of_ne hsub.length_le fun heq => ?_
  have hmem : v ∈ above set c' := by
    rw [hsub.eq_of_length heq]
    exact mem_filter.mpr ⟨hv, decide_eq_true hc⟩
  have := of_decide_eq_true (mem_filter.mp hmem).2
  omega

variable (hset : ∀ v ∈ set, v.end_ ≤ userVaTop)
include hset

/-- The search never runs out: more iterations give the same answer. -/
lemma mmapSearch_fuel (len : Nat) {fuel' : Nat}
    (hf : (above set c).length < fuel) (hff : fuel ≤ fuel') :
    mmapSearch set len fuel' c = mmapSearch set len fuel c := by
  induction fuel generalizing fuel' c with
  | zero => omega
  | succ fuel ih =>
    obtain ⟨n, rfl⟩ : ∃ n, fuel' = n + 1 := ⟨fuel' - 1, by omega⟩
    rw [mmapSearch, mmapSearch]
    split
    · split
      · rfl
      rename_i hit hov
      have hmem := mem_of_find?_eq_some hov
      have hprop := find?_some hov
      simp only [decide_eq_true_eq] at hprop
      have hlt := above_length_lt hmem hprop.1 (le_pageAlignUp (hset hit hmem))
      exact ih (by omega) (by omega)
    · rfl

/-- **`mmap_find_free` terminates** with the answer of the unbounded loop. -/
lemma mmapFindFree_fuel (len : Nat) (hf : set.length < fuel) :
    mmapSearch set len fuel userMmapBase = mmapFindFree set len :=
  mmapSearch_fuel hset len (Nat.lt_succ_of_le (length_filter_le _ _)) hf

end FermiOs
