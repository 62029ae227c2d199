import FermiOs.Syscall.Dispatch
import FermiOs.Syscall.Mem

/-!
# Error codes

Which calls leave an error code. `fail` stores a code in the first word of the caller's TLS page and
returns `-1`; the other layers (`fd_read`, `fd_close`, `fd_seek`, `sched_fork`, `sched_kill_task`,
`sys_exec`, the network and the balloon) report a failure as a bare `-1` that the dispatcher hands on.

The errno word is followed through a call for every value it held before and every content of the
buffers the call fills. A call stores a code when the word is that code afterwards whatever it was
before, and leaves the word alone when it is always what it was. A buffer the caller aims at its own
errno word is filled like any other.
-/

namespace FermiOs
open Library
variable {err : Nat} {r : Int} {s : Served} {spans : List Span} {t' : Task}

/-- The four bytes of `errno`. -/
abbrev ErrnoWord := Fin 4 → UInt8

/-- An error code as it is stored. -/
def codeWord (err : Nat) : ErrnoWord := fun i => byteOf err i

/-- The errno word of a task. -/
def errnoWord (k : Kernel) (t : Task) : ErrnoWord := fun i => k.frame t.tlsPhys i

/-- The kernel with another value in the errno word of a task. -/
def withWord (k : Kernel) (t : Task) (w : ErrnoWord) : Kernel :=
  { k with frame := fun p off =>
      if h : p = t.tlsPhys ∧ off < 4 then w ⟨off, h.2⟩ else k.frame p off }

/-- What a call meets: the pointers, descriptors and answers of `CallEnv`, the kernel and the caller's
record for the memory calls, the uptime, the size of the balloon, and the byte of the errno word that
a user address is translated to, if any. -/
structure ErrnoEnv where
  call : CallEnv
  kernel : Kernel
  task : Task
  uptime : Nat
  balloonPages : Nat
  errnoByte : Nat → Option (Fin 4)

/-- What a call leaves: the value in `x0` and the errno word. There is no value when control does not
return to the caller. -/
structure Reply where
  ret : Option Int
  word : ErrnoWord

namespace ErrnoEnv
variable (E : ErrnoEnv)

/-- The address of the spans that is translated to byte `i` of the errno word. -/
def hit (spans : List Span) (i : Fin 4) : Option Nat :=
  spans.findSome? fun s =>
    ((List.range s.len).map (add64 s.start)).find? fun a => decide (E.errnoByte a = some i)

section
variable (data : Nat → UInt8)

/-- The errno word after the bytes `data` went to the spans. -/
def filled (spans : List Span) (w : ErrnoWord) : ErrnoWord := fun i =>
  match E.hit spans i with
  | some a => data a
  | none => w i

/-- A case that returns: the buffers are filled first, then `fail` stores its code. -/
def reply (w : ErrnoWord) (s : Served) (written : List Span) : Reply where
  ret := some s.ret
  word :=
    match s.errno with
    | some err => if E.task.tlsPhys = 0 then E.filled data written w else codeWord err
    | none => E.filled data written w

/-- A service that stores no code. -/
def bare (w : ErrnoWord) (ret : Int) (written : List Span) : Reply :=
  E.reply data w ⟨ret, none, []⟩ written

end

/-- A memory call, on the kernel whose errno word is `w`. -/
def memReply (w : ErrnoWord) (call : Kernel → Task → Int × Task × Kernel) : Reply where
  ret := some (call (withWord E.kernel E.task w) E.task).1
  word := errnoWord (call (withWord E.kernel E.task w) E.task).2.2 E.task

end ErrnoEnv

/-! ## The layers that return a bare `-1` -/

/-- `fd_read` refuses: no such descriptor, write-only, or no `read` operation. -/
def readRefused (t : FdTable) (fd : Nat) : Bool :=
  match fdSlot t fd with
  | none => true
  | some f => f.accMode == 1 || f.driver == .dir

/-- `fd_write` refuses: no such descriptor, read-only, or no `write` operation. -/
def writeRefused (t : FdTable) (fd : Nat) : Bool :=
  match fdSlot t fd with
  | none => true
  | some f => f.accMode == 0 || f.driver == .rng || f.driver == .proc || f.driver == .dir

/-- A 64-bit register as `int64_t`. -/
def signed64 (x : Nat) : Int := (x : Int).bmod (2 ^ 64)

/-- `VNODE_CHR`. -/
def isChar (d : Driver) : Bool :=
  d == .console || d == .null || d == .zero || d == .rng || d == .vcons

/-- `VNODE_REG`. -/
def isRegular (d : Driver) : Bool := d == .proc || d == .fat32

/-- The offset `fd_seek` computes, before the check for a negative one. -/
def seekOffset (f : OpenFile) (offset : Int) (whence : Nat) : Option Int :=
  if whence = 0 then some offset
  else if whence = 1 then some ((f.offset + offset).bmod (2 ^ 64))
  else if whence = 2 ∧ isRegular f.driver then some ((f.size + offset).bmod (2 ^ 64))
  else none

/-- `fd_seek`; `none` is the return value `-1`. -/
def fdSeekTo (t : FdTable) (fd : Nat) (offset : Int) (whence : Nat) : Option Nat :=
  match fdSlot t fd with
  | none => none
  | some f =>
    if isChar f.driver then none
    else
      match seekOffset f offset whence with
      | none => none
      | some o => if o < 0 then none else some o.toNat

/-- The checks `sys_exec` makes before it opens the file. -/
def execRefused (E : CallEnv) (path argv : Nat) : Bool :=
  decide ((userStrOk E.mem path).1 < 0) || E.fds.isNone ||
    match (if argv = 0 then (some [], []) else captureArgv E.mem argv 32 0 0).1 with
    | none => true
    | some args => !execStackFits args.length (args.map fun a => a.length + 1).sum

/-- The result of `SYS_BALLOON`: `none` for an operation that does not exist. -/
def balloonResult (E : ErrnoEnv) (op : Nat) : Option Int :=
  if op < 2 then some E.call.result
  else if op < 4 then some E.balloonPages
  else none

/-! ## The dispatcher -/

/-- The return value of a descriptor operation: `-1` without a table, for a bad buffer or when the
layer refuses, else the answer of the driver. -/
def transferRet (E : CallEnv) (refused : FdTable → Nat → Bool) (fd buf count : Nat) : Int :=
  match E.fds with
  | none => -1
  | some t =>
    if userBufOk buf count = false then -1 else if refused t fd then -1 else E.result

/-- `fd_close`. -/
def closeRet (E : CallEnv) (fd : Nat) : Int :=
  match E.fds with
  | none => -1
  | some t => if (fdSlot t fd).isNone then -1 else 0

/-- `SYS_LSEEK`. -/
def lseekRet (E : CallEnv) (fd : Nat) (offset : Int) (whence : Nat) : Int :=
  match E.fds.bind fun t => fdSeekTo t fd offset whence with
  | none => -1
  | some o => o

/-- The spans of a case that stores no code. -/
def Served.fills (s : Served) (spans : List Span) : List Span :=
  if s.errno.isSome then [] else spans

/-- The user memory a call fills without storing a code. -/
def filledSpans (E : CallEnv) (fuel : Nat) (f : TrapFrame) : List Span :=
  let arg0 := f.arg0.toNat
  let arg1 := f.arg1.toNat
  let arg2 := f.arg2.toNat
  let arg3 := f.arg3.toNat
  match sysNo f.num.toNat with
  | .read =>
    match E.fds with
    | some t => if userBufOk arg1 arg2 then fdRead E.dev t arg0 arg1 arg2 else []
    | none => []
  | .waitpid => (waitpidServed E arg1).fills (waitpidServed E arg1).touched
  | .getdents64 => (getdentsServed E arg0 arg1 arg2).fills (getdentsServed E arg0 arg1 arg2).touched
  | .clockGettime => (clockGettimeServed arg0 arg1).fills (clockGettimeServed arg0 arg1).touched
  | .nanosleep => (nanosleepServed E arg0 arg1).fills (if arg1 = 0 then [] else [⟨arg1, 16⟩])
  | .getrandom => (getrandomServed E arg0 arg1).fills (getrandomServed E arg0 arg1).touched
  | .fstat => (fstatServed E arg0 arg1).fills (fstatServed E arg0 arg1).touched
  | .newfstatat => (newfstatatServed E fuel arg0 arg1 arg2 arg3).fills [⟨arg2, 128⟩]
  | _ => []

/-- `syscall_dispatch` and everything below it, seen from the errno word: `data` is what the call
fills buffers with, `w` the word before the call. -/
def syscallReply (E : ErrnoEnv) (fuel : Nat) (f : TrapFrame) (data : Nat → UInt8) (w : ErrnoWord) :
    Reply :=
  let C := E.call
  let arg0 := f.arg0.toNat
  let arg1 := f.arg1.toNat
  let arg2 := f.arg2.toNat
  let arg3 := f.arg3.toNat
  let arg4 := f.arg4.toNat
  let arg5 := f.arg5.toNat
  let fills := filledSpans C fuel f
  match sysNo f.num.toNat with
  | .read => E.bare data w (transferRet C readRefused arg0 arg1 arg2) fills
  | .write => E.bare data w (transferRet C writeRefused arg0 arg1 arg2) []
  | .open_ => E.reply data w (openServed C fuel arg0 arg1) []
  | .openat =>
    E.reply data w (if isAtFdcwd arg0 then openServed C fuel arg1 arg2 else failed eNoSys []) []
  | .close => E.bare data w (closeRet C arg0) []
  -- `task_exit` does not return
  | .exit => ⟨none, w⟩
  | .yield => E.bare data w 0 []
  | .sleep => E.bare data w 0 []
  | .getpid => E.bare data w E.task.pid []
  | .lseek => E.bare data w (lseekRet C arg0 (signed64 arg1) (arg2 % 2 ^ 32)) []
  | .uptime => E.bare data w E.uptime []
  | .netPing => E.bare data w C.result []
  | .kill => E.bare data w C.result []
  | .fork => E.bare data w C.result []
  | .exec =>
    -- a successful `sys_exec` continues in the new program
    if execRefused C arg0 arg1 ∨ C.result < 0 then E.bare data w (-1) [] else ⟨none, w⟩
  | .balloon => E.bare data w ((balloonResult E arg0).getD (-1)) []
  | .waitpid => E.reply data w (waitpidServed C arg1) fills
  | .archPrctl => E.reply data w (archPrctlServed C arg0 arg1) []
  | .setTidAddress => E.bare data w E.task.pid []
  | .getdents64 => E.reply data w (getdentsServed C arg0 arg1 arg2) fills
  | .clockGettime => E.reply data w (clockGettimeServed arg0 arg1) fills
  | .nanosleep => E.reply data w (nanosleepServed C arg0 arg1) fills
  | .getrandom => E.reply data w (getrandomServed C arg0 arg1) fills
  | .fstat => E.reply data w (fstatServed C arg0 arg1) fills
  | .newfstatat => E.reply data w (newfstatatServed C fuel arg0 arg1 arg2 arg3) fills
  | .mmap => E.memReply w fun k t => sysMmap k t arg0 arg1 arg2 arg3 arg4 arg5
  | .brk => E.memReply w fun k t => sysBrk k t arg0
  | .munmap => E.memReply w fun k t => sysMunmap k t arg0 arg1
  | .mprotect => E.memReply w fun k t => sysMprotect k t arg0 arg1 arg2
  | .unknown => E.reply data w (failed eNoSys []) []

/-- `arch_prctl(ARCH_GET_FS)` returns the thread pointer, whatever it is. -/
def GetFs (f : TrapFrame) : Prop := sysNo f.num.toNat = .archPrctl ∧ f.arg0.toNat = 0x1003

/-- **The errno contract** of one call: `-1` as an error comes with a code in the errno word, and any
other return leaves the word alone. -/
def KeepsContract (E : ErrnoEnv) (fuel : Nat) (f : TrapFrame) : Prop :=
  ∀ data w r, (syscallReply E fuel f data w).ret = some r →
    (r = -1 ∧ ¬ GetFs f → ∃ err, IsCode err ∧ (syscallReply E fuel f data w).word = codeWord err) ∧
    (r ≠ -1 ∨ GetFs f → (syscallReply E fuel f data w).word = w)

/-! ## When the contract is broken -/

/-- The call fails in a layer that stores no code. -/
def FailsSilently (E : ErrnoEnv) (f : TrapFrame) : Prop :=
  let C := E.call
  let arg0 := f.arg0.toNat
  let arg1 := f.arg1.toNat
  let arg2 := f.arg2.toNat
  match sysNo f.num.toNat with
  | .read => ∀ t, C.fds = some t →
      userBufOk arg1 arg2 = false ∨ readRefused t arg0 = true ∨ C.result = -1
  | .write => ∀ t, C.fds = some t →
      userBufOk arg1 arg2 = false ∨ writeRefused t arg0 = true ∨ C.result = -1
  | .close => ∀ t, C.fds = some t → fdSlot t arg0 = none
  | .lseek => ∀ t, C.fds = some t → fdSeekTo t arg0 (signed64 arg1) (arg2 % 2 ^ 32) = none
  | .netPing => C.result = -1
  | .kill => C.result = -1
  | .fork => C.result = -1
  | .exec => execRefused C arg0 arg1 = true ∨ C.result < 0
  | .balloon => 4 ≤ arg0 ∨ (arg0 < 2 ∧ C.result = -1)
  | _ => False

/-- The call fills a buffer that lies over the errno word. -/
def FillsErrno (E : ErrnoEnv) (fuel : Nat) (f : TrapFrame) : Prop :=
  ∃ i, (E.hit (filledSpans E.call fuel f) i).isSome

/-! ## Cases that use `fail` -/

/-- The case stores a code exactly when it returns `-1`. -/
def Served.Reports (s : Served) : Prop :=
  (s.ret = -1 ∧ ∃ err, IsCode err ∧ s.errno = some err) ∨ (s.ret ≠ -1 ∧ s.errno = none)

lemma failed_reports {spans : List Span} (h : IsCode err) : (failed err spans).Reports :=
  .inl ⟨rfl, err, h, rfl⟩

lemma served_reports {spans : List Span} (h : r ≠ -1) : Served.Reports ⟨r, none, spans⟩ :=
  .inr ⟨h, rfl⟩

lemma openServed_reports (E : CallEnv) (fuel path flags : Nat) :
    (openServed E fuel path flags).Reports := by
  unfold openServed
  dsimp only
  split
  · exact failed_reports (by decide)
  split
  · exact failed_reports (by decide)
  split
  · refine failed_reports ?_
    split <;> decide
  · exact served_reports (by omega)

lemma waitpidServed_reports (E : CallEnv) (status : Nat) : (waitpidServed E status).Reports := by
  unfold waitpidServed
  split
  · exact failed_reports (by decide)
  split
  · exact failed_reports (by decide)
  · exact served_reports (by omega)

lemma getdentsServed_reports (E : CallEnv) (fd out count : Nat) :
    (getdentsServed E fd out count).Reports := by
  unfold getdentsServed
  split
  · exact served_reports (by decide)
  split
  · exact failed_reports (by decide)
  split
  · exact failed_reports (by decide)
  split
  · exact failed_reports (by decide)
  dsimp only
  split
  · exact failed_reports (by decide)
  · exact served_reports (by omega)

lemma clockGettimeServed_reports (clock ts : Nat) : (clockGettimeServed clock ts).Reports := by
  unfold clockGettimeServed
  split
  · exact failed_reports (by decide)
  split
  · exact failed_reports (by decide)
  · exact served_reports (by decide)

section
variable (E : CallEnv)
include E

lemma nanosleepServed_reports (req rem : Nat) : (nanosleepServed E req rem).Reports := by
  unfold nanosleepServed
  split
  · exact failed_reports (by decide)
  dsimp only
  split
  · exact failed_reports (by decide)
  split
  · exact served_reports (by decide)
  split
  · exact failed_reports (by decide)
  · exact served_reports (by decide)

lemma getrandomServed_reports (buf count : Nat) : (getrandomServed E buf count).Reports := by
  unfold getrandomServed
  split
  · exact served_reports (by decide)
  split
  · exact failed_reports (by decide)
  split
  · exact failed_reports (by decide)
  · exact served_reports (by omega)

lemma fstatServed_reports (fd statbuf : Nat) : (fstatServed E fd statbuf).Reports := by
  unfold fstatServed
  split
  · exact failed_reports (by decide)
  split
  · exact failed_reports (by decide)
  · exact served_reports (by decide)

lemma newfstatatServed_reports (fuel dirfd path statbuf flags : Nat) :
    (newfstatatServed E fuel dirfd path statbuf flags).Reports := by
  unfold newfstatatServed
  split
  · exact failed_reports (by decide)
  dsimp only
  split
  · exact failed_reports (by decide)
  split
  · exact failed_reports (by decide)
  split
  · exact failed_reports (by decide)
  · exact served_reports (by decide)

lemma archPrctlServed_reports {code : Nat} (h : code ≠ 0x1003) (addr : Nat) :
    (archPrctlServed E code addr).Reports := by
  unfold archPrctlServed
  split
  · split
    · exact failed_reports (by decide)
    · exact served_reports (by decide)
  exact failed_reports (by decide)

end

/-! ## The memory calls -/

/-- A memory call stores a code exactly when it returns `-1`. -/
def MemReports (k : Kernel) (t : Task) (r : Int × Task × Kernel) : Prop :=
  (r.1 = -1 ∧ ∃ err, IsCode err ∧ errnoWord r.2.2 t = codeWord err) ∨
    (r.1 ≠ -1 ∧ errnoWord r.2.2 t = errnoWord k t)

section
variable {k k' : Kernel} {t : Task}

lemma memReports_fail (ht : t.tlsPhys ≠ 0) (k k' : Kernel) (t' : Task) (he : IsCode err) :
    MemReports k t (-1, t', setErrno k' t err) := by
  refine .inl ⟨rfl, err, he, ?_⟩
  funext i
  simp [errnoWord, codeWord, setErrno, ht]

lemma memReports_done (hr : r ≠ -1) (hf : k'.frame = k.frame) : MemReports k t (r, t', k') := by
  refine .inr ⟨hr, ?_⟩
  funext i
  simp [errnoWord, hf]

lemma invalidateUserSpan_frame (k : Kernel) (va pages : Nat) :
    (k.invalidateUserSpan va pages).frame = k.frame := by
  have hfold : ∀ (gs : List Nat) (k : Kernel),
      (gs.foldl (fun k g => k.tlbiVae1 (g / 4096)) k).frame = k.frame := by
    intro gs
    induction gs with
    | nil => exact fun _ => rfl
    | cons g gs ih => exact fun k => ih (k.tlbiVae1 (g / 4096))
  unfold Kernel.invalidateUserSpan
  split
  · rfl
  · exact hfold _ k

lemma mmuUnmapUserRange_frame (k : Kernel) (l0 va pages : Nat) :
    (k.mmuUnmapUserRange l0 va pages).frame = k.frame := by
  unfold Kernel.mmuUnmapUserRange
  split
  · rfl
  · rw [invalidateUserSpan_frame]
    rfl

lemma mmuProtectUserRange_frame (k : Kernel) (l0 va pages : Nat) (flags : Pte) :
    (k.mmuProtectUserRange l0 va pages flags).2.frame = k.frame := by
  unfold Kernel.mmuProtectUserRange
  split
  · rfl
  · rw [invalidateUserSpan_frame]
    rfl

section
variable (ht : t.tlsPhys ≠ 0)
include ht

lemma sysMmap_reports (addr length prot flags fd offset : Nat) :
    MemReports k t (sysMmap k t addr length prot flags fd offset) := by
  rcases hr : sysMmap k t addr length prot flags fd offset with ⟨r, t', k'⟩
  obtain ⟨rfl, rfl, k1, -, err, he, rfl⟩ | ⟨_, _, _, -, -, -, hadd, rfl, -⟩ := sysMmap_cases hr
  · exact memReports_fail ht k k1 t' he
  · exact memReports_done (by omega) (vmaAdd_heapStep hadd).frame

lemma OnlyCut.reports (h : OnlyCut k t r t' k') : MemReports k t (r, t', k') := by
  obtain ⟨set, k1, hh, -, rfl, ⟨rfl, rfl⟩ | ⟨rfl, err, he, rfl⟩⟩ := h
  · exact memReports_done (by decide) hh.frame
  · exact memReports_fail ht k k1 _ he

lemma sysMunmap_reports (addr length : Nat) : MemReports k t (sysMunmap k t addr length) := by
  rcases hr : sysMunmap k t addr length with ⟨r, t', k'⟩
  obtain hcut | ⟨_, _, _, k1, -, -, -, -, hun, rfl, -, rfl⟩ := sysMunmap_cases hr
  · exact hcut.reports ht
  refine memReports_done (by decide) ?_
  rw [mmuUnmapUserRange_frame]
  obtain ⟨hno, -⟩ | ⟨k2, set1, hs, -, -, -, hs', -⟩ := vmaUnmapRange_cases hun
  · cases hno
  · exact hs'.frame.trans hs.frame

lemma sysMprotect_reports (addr length prot : Nat) :
    MemReports k t (sysMprotect k t addr length prot) := by
  rcases hr : sysMprotect k t addr length prot with ⟨r, t', k'⟩
  obtain hcut | ⟨_, _, _, k1, -, -, -, -, -, hpr, rfl, -, rfl⟩ := sysMprotect_cases hr
  · exact hcut.reports ht
  refine memReports_done (by decide) ?_
  rw [mmuProtectUserRange_frame]
  exact (vmaProtectRange_cases hpr).1.frame

end

/-- `brk` never reports an error: it returns the break. -/
lemma sysBrk_reports (addr : Nat) : MemReports k t (sysBrk k t addr) := by
  rcases hr : sysBrk k t addr with ⟨r, t', k'⟩
  refine memReports_done ?_ (sysBrk_cases hr).1.frame
  have hpos : 0 ≤ (sysBrk k t addr).1 := by
    unfold sysBrk
    dsimp only
    repeat' split
    all_goals exact Int.natCast_nonneg _
  rw [hr] at hpos
  omega

end

/-! ## The contract of one kind of case -/

/-- The contract of a case, before `ARCH_GET_FS` is set apart. -/
def Contract (R : (Nat → UInt8) → ErrnoWord → Reply) : Prop :=
  ∀ data w r, (R data w).ret = some r →
    (r = -1 → ∃ err, IsCode err ∧ (R data w).word = codeWord err) ∧
    (r ≠ -1 → (R data w).word = w)

lemma codeWord_ne_zero (h : IsCode err) : codeWord err ≠ fun _ => 0 := by
  intro hz
  obtain ⟨h0, h1⟩ := h
  have hbyte : ∀ i : Fin 4, err / 256 ^ (i : Nat) % 256 = 0 := by
    intro i
    have hi := congrArg UInt8.toNat (congrFun hz i)
    simpa [codeWord, byteOf] using hi
  have b0 := hbyte 0
  have b1 := hbyte 1
  have b2 := hbyte 2
  have b3 := hbyte 3
  simp only [Fin.isValue, Fin.val_zero, Fin.val_one, Fin.val_two, pow_zero, pow_one] at b0 b1 b2
  have h3 : ((3 : Fin 4) : Nat) = 3 := rfl
  rw [h3] at b3
  omega

section
variable {E : ErrnoEnv}

lemma filled_of_no_hit (h : ∀ i, ¬ (E.hit spans i).isSome) (data : Nat → UInt8) (w : ErrnoWord) :
    E.filled data spans w = w := by
  funext i
  have hi := h i
  rw [ErrnoEnv.filled]
  cases hh : E.hit spans i with
  | none => rfl
  | some a => rw [hh] at hi; exact absurd rfl hi

lemma filled_of_hit {i : Fin 4} (h : (E.hit spans i).isSome) :
    E.filled (fun _ => 1) spans (fun _ => 0) ≠ fun _ => 0 := by
  intro hz
  have hi := congrFun hz i
  rw [ErrnoEnv.filled] at hi
  cases hh : E.hit spans i with
  | none => rw [hh] at h; cases h
  | some a =>
    rw [hh] at hi
    exact absurd (show (1 : UInt8) = 0 from hi) (by decide)

lemma filled_zero (spans : List Span) : E.filled (fun _ => 0) spans (fun _ => 0) = fun _ => 0 := by
  funext i
  rw [ErrnoEnv.filled]
  split <;> rfl

/-- **A service without codes** keeps the contract when it does not fail and fills no errno byte. -/
lemma contract_bare_iff (ret : Int) (spans : List Span) :
    Contract (fun data w => E.bare data w ret spans) ↔ ret ≠ -1 ∧ ∀ i, ¬ (E.hit spans i).isSome := by
  constructor
  · intro h
    have hret : ret ≠ -1 := by
      intro hr
      obtain ⟨err, he, hw⟩ := (h (fun _ => 0) (fun _ => 0) ret rfl).1 hr
      exact codeWord_ne_zero he (hw.symm.trans (filled_zero spans))
    refine ⟨hret, fun i hi => ?_⟩
    exact filled_of_hit hi ((h (fun _ => 1) (fun _ => 0) ret rfl).2 hret)
  · rintro ⟨hret, hno⟩ data w r hr
    obtain rfl : ret = r := Option.some.inj hr
    exact ⟨fun hr' => absurd hr' hret, fun _ => filled_of_no_hit hno data w⟩

/-- **A case that uses `fail`** keeps the contract when it fills no errno byte. -/
lemma contract_reply_iff (ht : E.task.tlsPhys ≠ 0) (hs : s.Reports) (spans : List Span) :
    Contract (fun data w => E.reply data w s (s.fills spans)) ↔
      ∀ i, ¬ (E.hit (s.fills spans) i).isSome := by
  rcases hs with ⟨hret, err, he, herr⟩ | ⟨hret, herr⟩
  · refine iff_of_true ?_ ?_
    · intro data w r hr
      obtain rfl : s.ret = r := Option.some.inj hr
      refine ⟨fun _ => ⟨err, he, ?_⟩, fun hr' => absurd hret hr'⟩
      simp [ErrnoEnv.reply, herr, ht]
    · intro i
      simp [Served.fills, herr, ErrnoEnv.hit]
  have hrep : (fun data w => E.reply data w s (s.fills spans)) =
      fun data w => E.bare data w s.ret (s.fills spans) := by
    funext data w
    simp only [ErrnoEnv.bare, ErrnoEnv.reply, herr]
  rw [hrep, contract_bare_iff]
  exact and_iff_right hret

lemma contract_reply_nil (ht : E.task.tlsPhys ≠ 0) (hs : s.Reports) :
    Contract (fun data w => E.reply data w s []) := by
  have hnil : s.fills [] = [] := by simp [Served.fills]
  have h := (contract_reply_iff ht hs []).mpr (by simp [hnil, ErrnoEnv.hit])
  rwa [hnil] at h

/-- **A memory call** keeps the contract. -/
lemma contract_mem {call : Kernel → Task → Int × Task × Kernel}
    (h : ∀ k, MemReports k E.task (call k E.task)) :
    Contract (fun _ w => E.memReply w call) := by
  intro data w r hr
  obtain rfl := Option.some.inj hr
  have hw : errnoWord (withWord E.kernel E.task w) E.task = w := by
    funext i
    simp [errnoWord, withWord]
  rcases h (withWord E.kernel E.task w) with ⟨hr1, err, he, hcode⟩ | ⟨hr1, hsame⟩
  · exact ⟨fun _ => ⟨err, he, hcode⟩, fun hne => absurd hr1 hne⟩
  · exact ⟨fun hr' => absurd hr' hr1, fun _ => hsame.trans hw⟩

end

/-! ## The services without codes -/

lemma transferRet_eq_iff (C : CallEnv) (refused : FdTable → Nat → Bool) (fd buf count : Nat) :
    transferRet C refused fd buf count = -1 ↔ ∀ t, C.fds = some t →
      userBufOk buf count = false ∨ refused t fd = true ∨ C.result = -1 := by
  unfold transferRet
  cases C.fds with
  | none => simp
  | some t =>
    simp only [Option.some.injEq, forall_eq']
    split
    · simp [*]
    · split
      · simp [*]
      · simp [*]

lemma closeRet_eq_iff (C : CallEnv) (fd : Nat) :
    closeRet C fd = -1 ↔ ∀ t, C.fds = some t → fdSlot t fd = none := by
  unfold closeRet
  cases C.fds with
  | none => simp
  | some t =>
    cases fdSlot t fd with
    | none => simp
    | some f => simp

lemma lseekRet_eq_iff (C : CallEnv) (fd : Nat) (offset : Int) (whence : Nat) :
    lseekRet C fd offset whence = -1 ↔ ∀ t, C.fds = some t → fdSeekTo t fd offset whence = none := by
  unfold lseekRet
  cases C.fds with
  | none => simp
  | some t =>
    simp only [Option.some.injEq, forall_eq', Option.bind_some]
    cases fdSeekTo t fd offset whence with
    | none => simp
    | some o =>
      simp only [reduceCtorEq]

lemma balloonResult_eq_iff (E : ErrnoEnv) (op : Nat) :
    (balloonResult E op).getD (-1) = -1 ↔ 4 ≤ op ∨ (op < 2 ∧ E.call.result = -1) := by
  unfold balloonResult
  split
  · simp only [Option.getD_some]
    omega
  split
  · simp only [Option.getD_some]
    omega
  · simp only [Option.getD_none, true_iff]
    omega

/-! ## All calls -/

lemma keepsContract_iff {E : ErrnoEnv} {fuel : Nat} {f : TrapFrame} (h : ¬ GetFs f) :
    KeepsContract E fuel f ↔ Contract (syscallReply E fuel f) := by
  simp only [KeepsContract, Contract, h, not_false_eq_true, and_true, or_false]

lemma hit_nil (E : ErrnoEnv) (i : Fin 4) : E.hit [] i = none := rfl

/-- **The errno contract** is kept by exactly the calls that neither fail in a layer without codes nor
fill a buffer over the errno word. -/
theorem errno_contract_iff (E : ErrnoEnv) (fuel : Nat) (f : TrapFrame) (ht : E.task.tlsPhys ≠ 0) :
    KeepsContract E fuel f ↔ ¬ FailsSilently E f ∧ ¬ FillsErrno E fuel f := by
  by_cases hg : GetFs f
  · -- the thread pointer is returned and nothing is stored
    have hrep : ∀ data w, (syscallReply E fuel f data w).word = w := by
      intro data w
      have hserved : (archPrctlServed E.call f.arg0.toNat f.arg1.toNat).errno = none := by
        simp [archPrctlServed, hg.2]
      simp only [syscallReply, hg.1, ErrnoEnv.reply, hserved]
      exact filled_of_no_hit (by simp [hit_nil]) data w
    refine iff_of_true (fun data w r _ => ⟨fun h => absurd hg h.2, fun _ => hrep data w⟩) ?_
    simp [FailsSilently, FillsErrno, filledSpans, hg.1, hit_nil]
  rw [keepsContract_iff hg, FillsErrno, not_exists]
  -- three kinds of cases: without codes, with `fail`, and with nothing to fill
  have hbare : ∀ {ret : Int} {silent : Prop} {spans : List Span}, (ret = -1 ↔ silent) →
      (Contract (fun data w => E.bare data w ret spans) ↔
        ¬ silent ∧ ∀ i, ¬ (E.hit spans i).isSome = true) := by
    intro ret silent spans hs
    rw [contract_bare_iff, ne_eq, hs]
  have hreply : ∀ {s : Served} (spans : List Span), s.Reports →
      (Contract (fun data w => E.reply data w s (s.fills spans)) ↔
        ¬ False ∧ ∀ i, ¬ (E.hit (s.fills spans) i).isSome = true) := by
    intro s spans hs
    rw [contract_reply_iff ht hs, and_iff_right not_false]
  have hkept : ∀ {R}, Contract R → (Contract R ↔ ¬ False ∧ ∀ i, ¬ (E.hit [] i).isSome = true) := by
    intro R hR
    exact iff_of_true hR ⟨not_false, by simp [hit_nil]⟩
  cases hno : sysNo f.num.toNat
  all_goals unfold syscallReply
  all_goals simp only [FailsSilently, filledSpans, hno]
  case read => exact hbare (transferRet_eq_iff _ _ _ _ _)
  case write => exact hbare (transferRet_eq_iff _ _ _ _ _)
  case close => exact hbare (closeRet_eq_iff _ _)
  case lseek => exact hbare (lseekRet_eq_iff _ _ _ _)
  case netPing => exact hbare Iff.rfl
  case kill => exact hbare Iff.rfl
  case fork => exact hbare Iff.rfl
  case balloon => exact hbare (balloonResult_eq_iff E _)
  case yield => exact hbare (iff_false_intro (by decide))
  case sleep => exact hbare (iff_false_intro (by decide))
  case getpid => exact hbare (iff_false_intro (by omega))
  case uptime => exact hbare (iff_false_intro (by omega))
  case setTidAddress => exact hbare (iff_false_intro (by omega))
  case exec =>
      by_cases hfail : execRefused E.call f.arg0.toNat f.arg1.toNat = true ∨ E.call.result < 0
      · simp only [if_pos hfail]
        exact hbare (iff_of_true rfl hfail)
      · simp only [if_neg hfail]
        exact iff_of_true nofun ⟨hfail, by simp [hit_nil]⟩
  case exit => exact hkept nofun
  case open_ => exact hkept (contract_reply_nil ht (openServed_reports _ _ _ _))
  case openat =>
      refine hkept (contract_reply_nil ht ?_)
      split
      · exact openServed_reports _ _ _ _
      · exact failed_reports (by decide)
  case archPrctl =>
      exact hkept (contract_reply_nil ht (archPrctlServed_reports _ (fun h => hg ⟨hno, h⟩) _))
  case unknown => exact hkept (contract_reply_nil ht (failed_reports (by decide)))
  case mmap => exact hkept (contract_mem fun k => sysMmap_reports ht _ _ _ _ _ _)
  case munmap => exact hkept (contract_mem fun k => sysMunmap_reports ht _ _)
  case mprotect => exact hkept (contract_mem fun k => sysMprotect_reports ht _ _ _)
  case brk => exact hkept (contract_mem fun k => sysBrk_reports _)
  case waitpid => exact hreply _ (waitpidServed_reports _ _)
  case getdents64 => exact hreply _ (getdentsServed_reports _ _ _ _)
  case clockGettime => exact hreply _ (clockGettimeServed_reports _ _)
  case nanosleep => exact hreply _ (nanosleepServed_reports _ _ _)
  case getrandom => exact hreply _ (getrandomServed_reports _ _ _)
  case fstat => exact hreply _ (fstatServed_reports _ _ _)
  case newfstatat => exact hreply _ (newfstatatServed_reports _ _ _ _ _ _)

/-- A call of a task with a TLS page and a descriptor table in which nothing is open. -/
def bareErrnoEnv : ErrnoEnv where
  call := { bareEnv with fds := some fun _ => none }
  kernel := .boot virtCfg
  task := newTask 1 0x40100000 (ttbrPack 0x40104000 1) 0x40108000 0x4010c000 true
  uptime := 0
  balloonPages := 0
  errnoByte := fun _ => none

/-- An unknown number: the contract holds and `ENOSYS` is stored. -/
theorem errno_contract_unknown : KeepsContract bareErrnoEnv 0 ⟨1000, 0, 0, 0, 0, 0, 0⟩ ∧
      (syscallReply bareErrnoEnv 0 ⟨1000, 0, 0, 0, 0, 0, 0⟩ (fun _ => 0) (fun _ => 0)).ret =
        some (-1) := by
  refine ⟨(errno_contract_iff _ _ _ (by decide)).mpr ⟨?_, ?_⟩, rfl⟩
  · intro h
    exact h
  · rintro ⟨i, hi⟩
    cases hi

/-- **A failure without a code**: `close(0)` with nothing open returns `-1` and leaves errno at
zero. -/
theorem close_fails_without_code :
    (syscallReply bareErrnoEnv 0 ⟨3, 0, 0, 0, 0, 0, 0⟩ (fun _ => 0) (fun _ => 0)).ret = some (-1) ∧
      (syscallReply bareErrnoEnv 0 ⟨3, 0, 0, 0, 0, 0, 0⟩ (fun _ => 0) (fun _ => 0)).word =
        (fun _ => 0) ∧
      ¬ KeepsContract bareErrnoEnv 0 ⟨3, 0, 0, 0, 0, 0, 0⟩ := by
  refine ⟨by decide, by decide, fun h => ?_⟩
  have hno : ¬ GetFs ⟨3, 0, 0, 0, 0, 0, 0⟩ := by
    rintro ⟨h, -⟩
    revert h
    decide
  obtain ⟨err, he, hw⟩ := (h (fun _ => 0) (fun _ => 0) (-1) (by decide)).1 ⟨rfl, hno⟩
  exact codeWord_ne_zero he (hw.symm.trans (by decide))

end FermiOs
