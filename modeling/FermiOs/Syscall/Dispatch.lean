import FermiOs.Fs.Vfs

/-!
# The system-call dispatcher and user pointers

`syscall_dispatch` of `syscall/syscall.c`: for each number, which pointers a case validates and which
bytes of the caller's memory the case and everything it calls touch. Services that take no pointer
(scheduling, the memory calls, the balloon) enter through the value they return. The argument
capture of `sys_exec` is the only code that follows addresses found in user memory itself.

The main result says exactly for which calls a byte outside `[0, USER_VA_TOP)` is dereferenced:
only `newfstatat` can do it, because it tests `!user_str_ok(path)` where the validator reports a
bad string with `-1`.
-/

namespace FermiOs
variable {buf count fd p statbuf : Nat} {mem : UserMem}

/-! ## Numbers -/

/-- The cases of the switch. -/
inductive SysNo
  | read
  | write
  | open_
  | close
  | exit
  | yield
  | sleep
  | getpid
  | lseek
  | uptime
  | netPing
  | kill
  | fork
  | exec
  | balloon
  | waitpid
  | archPrctl
  | setTidAddress
  | openat
  | getdents64
  | clockGettime
  | nanosleep
  | getrandom
  | fstat
  | newfstatat
  | mmap
  | brk
  | munmap
  | mprotect
  | unknown
  deriving DecidableEq

/-- `translate_linux_syscall`. -/
def translateLinuxSyscall (num : Nat) : Nat :=
  ([(63, 0), (64, 1), (57, 3), (62, 8), (93, 4), (94, 4), (172, 7)].lookup num).getD num

/-- The case labels of the switch. -/
def caseLabels : List (Nat × SysNo) :=
  [(0, .read), (1, .write), (2, .open_), (3, .close), (4, .exit), (5, .yield), (6, .sleep),
    (7, .getpid), (8, .lseek), (9, .uptime), (10, .netPing), (11, .kill), (12, .fork),
    (13, .exec), (14, .balloon), (56, .openat), (61, .getdents64), (79, .newfstatat),
    (80, .fstat), (96, .setTidAddress), (101, .nanosleep), (113, .clockGettime),
    (158, .archPrctl), (214, .brk), (215, .munmap), (222, .mmap), (226, .mprotect),
    (260, .waitpid), (278, .getrandom)]

/-- The case a number is served by. -/
def sysNo (num : Nat) : SysNo := (caseLabels.lookup (translateLinuxSyscall num)).getD .unknown

/-- `x8` and `x0` to `x5` of the trap frame. -/
structure TrapFrame where
  num : UInt64
  arg0 : UInt64
  arg1 : UInt64
  arg2 : UInt64
  arg3 : UInt64
  arg4 : UInt64
  arg5 : UInt64

/-- `(int32_t)arg == (int32_t)AT_FDCWD`. -/
def isAtFdcwd (arg : Nat) : Bool := arg % 2 ^ 32 == 2 ^ 32 - 100

/-! ## Environment and outcome of a call -/

/-- One call of `vfs_readdir` by `getdents64`: an error, or an entry whose name has that many bytes;
the end of the list is the end of the directory. -/
inductive DirRead
  | error
  | entry (namelen : Nat)

/-- What a call meets besides its registers. `result` and `resultErrno` are the value returned and
the error code recorded by the service a case forwards to; `printsPath` tells whether the branch
`sys_exec` takes after opening the file prints the path. -/
structure CallEnv where
  mem : UserMem
  fds : Option FdTable
  fs : FsEnv
  dev : DevEnv
  entries : List DirRead
  result : Int
  resultErrno : Option Nat
  printsPath : Bool

/-- The value for `x0`, the error code `fail` recorded, and the user memory touched. -/
structure Served where
  ret : Int
  errno : Option Nat
  touched : List Span

/-- `fail(err)` after `touched`. -/
def failed (err : Nat) (touched : List Span) : Served := ⟨-1, some err, touched⟩

/-- A service took over and touched these bytes. -/
def CallEnv.served (E : CallEnv) (touched : List Span) : Served :=
  ⟨E.result, E.resultErrno, touched⟩

/-- `ENOENT`, `EIO`, `EBADF`, `ECHILD`, `EACCES`, `EFAULT`, `ENOTDIR`, `ENOSYS`. -/
def eNoEnt : Nat := 2

@[inherit_doc eNoEnt]
def eIo : Nat := 5

@[inherit_doc eNoEnt]
def eBadf : Nat := 9

@[inherit_doc eNoEnt]
def eChild : Nat := 10

@[inherit_doc eNoEnt]
def eAcces : Nat := 13

@[inherit_doc eNoEnt]
def eFault : Nat := 14

@[inherit_doc eNoEnt]
def eNotDir : Nat := 20

@[inherit_doc eNoEnt]
def eNoSys : Nat := 38

/-! ## The cases that follow a pointer -/

/-- The eight bytes at a user address, little-endian. -/
def load64 (mem : UserMem) (a : Nat) : Nat :=
  ((List.range 8).map fun i => 256 ^ i * (mem (add64 a i)).toNat).sum

/-- The bytes of a string of known length. -/
def stringAt (mem : UserMem) (p len : Nat) : List UInt8 :=
  (List.range len).map fun i => mem (add64 p i)

/-- The argument loop of `sys_exec`, from slot `argc` with `bytes` bytes already captured and `n`
slots left below `EXEC_MAX_ARGC`: the strings, or `none` if a check fails. -/
def captureArgv (mem : UserMem) (argv : Nat) : Nat → Nat → Nat → Option (List (List UInt8)) × List Span
  | 0, _, _ => (some [], [])
  | n + 1, argc, bytes =>
    let slot := add64 argv (argc * 8)
    if userBufOk slot 8 = false then (none, [])
    else
      let p := load64 mem slot
      if p = 0 then (some [], [⟨slot, 8⟩])
      else
        let s := userStrOk mem p
        if s.1 < 0 then (none, ⟨slot, 8⟩ :: s.2)
        else if 1024 < bytes + s.1.toNat + 1 then (none, ⟨slot, 8⟩ :: s.2)
        else
          let r := captureArgv mem argv n (argc + 1) (bytes + s.1.toNat + 1)
          (r.1.map (stringAt mem p s.1.toNat :: ·),
            ⟨slot, 8⟩ :: s.2 ++ ⟨p, s.1.toNat + 1⟩ :: r.2)

/-- The layout check of `sys_exec`: argument count and string bytes against the four stack
pages. -/
def execStackFits (argc argBytes : Nat) : Bool :=
  let auxvBase := (8 + (argc + 1) * 8 + 8 + 17 * 16 + 15) / 16 * 16
  let stringsLo := (userStackTop - argBytes - 16) / 16 * 16
  decide (stackInitialLo ≤ stringsLo - auxvBase)

/-- `sys_exec` up to the point where the old address space is no longer read. -/
def execServed (E : CallEnv) (fuel path argv : Nat) : Served :=
  let s := userStrOk E.mem path
  if s.1 < 0 then ⟨-1, none, s.2⟩
  else if E.fds.isNone then ⟨-1, none, s.2⟩
  else
    let c := if argv = 0 then (some [], []) else captureArgv E.mem argv 32 0 0
    match c.1 with
    | none => ⟨-1, none, s.2 ++ c.2⟩
    | some args =>
      if execStackFits args.length (args.map fun a => a.length + 1).sum = false then
        ⟨-1, none, s.2 ++ c.2⟩
      else
        let o := fdOpenEx E.fs E.mem fuel path 0
        let print := if o.1 < 0 ∨ E.printsPath then [⟨path, strlenReads E.mem fuel path⟩] else []
        E.served (s.2 ++ c.2 ++ o.2 ++ print)

/-- `SYS_OPEN` and, with the path in the next register, `LNX_OPENAT`. A failed open resolves the path
once more to pick the error code. -/
def openServed (E : CallEnv) (fuel path flags : Nat) : Served :=
  let s := userStrOk E.mem path
  if E.fds.isNone then failed eFault []
  else if s.1 < 0 then failed eFault s.2
  else
    let o := fdOpenEx E.fs E.mem fuel path flags
    if o.1 < 0 then
      let probe := vfsResolve E.fs.treeAfter E.mem fuel path
      failed (if probe.2.isSome then eAcces else eNoEnt) (s.2 ++ o.2 ++ [⟨path, probe.1⟩])
    else ⟨o.1, none, s.2 ++ o.2⟩

/-- The record loop of `LNX_GETDENTS64`: bytes used, whether an error stopped it, and what was
written to the buffer. -/
def getdentsFill (out count : Nat) : List DirRead → Nat → Nat × Bool × List Span
  | [], used => (used, false, [])
  | d :: ds, used =>
    if count ≤ used then (used, false, [])
    else
      match d with
      | .error => (used, true, [])
      | .entry namelen =>
        let reclen := (19 + namelen + 1 + 7) / 8 * 8
        if count < used + reclen then (used, false, [])
        else
          let r := getdentsFill out count ds (used + reclen)
          (r.1, r.2.1,
            ⟨add64 out used, 19⟩ :: ⟨add64 out (used + 19), namelen⟩ ::
              ⟨add64 out (used + 19 + namelen), 1⟩ :: r.2.2)

/-- `LNX_GETDENTS64`. -/
def getdentsServed (E : CallEnv) (fd out count : Nat) : Served :=
  if count = 0 then ⟨0, none, []⟩
  else
    match E.fds.bind (fdSlot · fd) with
    | none => failed eBadf []
    | some f =>
      if f.driver ≠ .dir then failed eNotDir []
      else if userBufOk out count = false then failed eFault []
      else
        let r := getdentsFill out count E.entries 0
        if r.2.1 then failed 95 r.2.2 else ⟨r.1, none, r.2.2⟩

/-- `SYS_WAITPID`: the status word is stored after a child has been collected. -/
def waitpidServed (E : CallEnv) (status : Nat) : Served :=
  if status ≠ 0 ∧ userBufOk status 4 = false then failed eFault []
  else if E.result < 0 then failed eChild []
  else ⟨E.result, none, if status = 0 then [] else [⟨status, 4⟩]⟩

/-- Sign of the 64-bit word at a user address, as `tv_sec < 0` reads it. -/
def negative64 (w : Nat) : Bool := decide (2 ^ 63 ≤ w)

section
variable (E : CallEnv)

/-- `LNX_NANOSLEEP`. -/
def nanosleepServed (req rem : Nat) : Served :=
  if userBufOk req 16 = false then failed eFault []
  else
    let sec := load64 E.mem req
    let nsec := load64 E.mem (add64 req 8)
    if negative64 sec || negative64 nsec || decide (1000000000 ≤ nsec) then
      failed 22 [⟨req, 16⟩]
    else if rem = 0 then ⟨0, none, [⟨req, 16⟩]⟩
    else if userBufOk rem 16 = false then failed eFault [⟨req, 16⟩]
    else ⟨0, none, [⟨req, 16⟩, ⟨rem, 16⟩]⟩

/-- `LNX_NEWFSTATAT`. The test `!user_str_ok(path)` rejects the empty path only. -/
def newfstatatServed (fuel dirfd path statbuf flags : Nat) : Served :=
  if isAtFdcwd dirfd = false then failed eNoSys []
  else
    let s := userStrOk E.mem path
    if s.1 = 0 ∨ userBufOk statbuf 128 = false then failed eFault s.2
    else if flags ≠ 0 ∧ flags ≠ 0x100 then failed 22 s.2
    else
      let r := vfsResolve E.fs.tree E.mem fuel path
      if r.2.isNone then failed eNoEnt (s.2 ++ [⟨path, r.1⟩])
      else ⟨0, none, s.2 ++ [⟨path, r.1⟩, ⟨statbuf, 128⟩]⟩

/-- `SYS_READ` and `SYS_WRITE`, with the descriptor operation as a parameter. -/
def transferServed (op : DevEnv → FdTable → Nat → Nat → Nat → List Span)
    (fd buf count : Nat) : Served :=
  match E.fds with
  | none => ⟨-1, none, []⟩
  | some t =>
    if userBufOk buf count then E.served (op E.dev t fd buf count) else ⟨-1, none, []⟩

/-- `LNX_GETRANDOM`: the device fills `(uint32_t)count` bytes. -/
def getrandomServed (buf count : Nat) : Served :=
  if count = 0 then ⟨0, none, []⟩
  else if userBufOk buf count = false then failed eFault []
  else if E.result < 0 then failed eIo [⟨buf, count % 2 ^ 32⟩]
  else ⟨E.result, none, [⟨buf, count % 2 ^ 32⟩]⟩

end

/-- `LNX_CLOCK_GETTIME`: only the realtime and the monotonic clock exist. -/
def clockGettimeServed (clock ts : Nat) : Served :=
  if clock ≠ 0 ∧ clock ≠ 1 then failed 22 []
  else if userBufOk ts 16 = false then failed eFault []
  else ⟨0, none, [⟨ts, 16⟩]⟩

/-- `LNX_FSTAT`. -/
def fstatServed (E : CallEnv) (fd statbuf : Nat) : Served :=
  match E.fds.bind (fdSlot · fd) with
  | none => failed eBadf []
  | some _ =>
    if userBufOk statbuf 128 = false then failed eFault [] else ⟨0, none, [⟨statbuf, 128⟩]⟩

/-- `LNX_ARCH_PRCTL`: the thread pointer is moved to and from a register, never followed. -/
def archPrctlServed (E : CallEnv) (code addr : Nat) : Served :=
  if code = 0x1002 then
    if addr = 0 ∨ addr % 8 ≠ 0 then failed 22 [] else ⟨0, none, []⟩
  else if code = 0x1003 then ⟨E.result, none, []⟩
  else failed 22 []

/-- `syscall_dispatch`. -/
def syscallDispatch (E : CallEnv) (fuel : Nat) (f : TrapFrame) : Served :=
  let arg0 := f.arg0.toNat
  let arg1 := f.arg1.toNat
  let arg2 := f.arg2.toNat
  let arg3 := f.arg3.toNat
  match sysNo f.num.toNat with
  | .read => transferServed E fdRead arg0 arg1 arg2
  | .write => transferServed E fdWrite arg0 arg1 arg2
  | .open_ => openServed E fuel arg0 arg1
  | .openat => if isAtFdcwd arg0 then openServed E fuel arg1 arg2 else failed eNoSys []
  | .exec => execServed E fuel arg0 arg1
  | .waitpid => waitpidServed E arg1
  | .getdents64 => getdentsServed E arg0 arg1 arg2
  | .clockGettime => clockGettimeServed arg0 arg1
  | .nanosleep => nanosleepServed E arg0 arg1
  | .getrandom => getrandomServed E arg0 arg1
  | .fstat => fstatServed E arg0 arg1
  | .newfstatat => newfstatatServed E fuel arg0 arg1 arg2 arg3
  | .archPrctl => archPrctlServed E arg0 arg1
  | .unknown => failed eNoSys []
  -- the remaining cases hand no address on: their arguments are numbers, descriptors and sizes
  | .close => E.served []
  | .exit => E.served []
  | .yield => E.served []
  | .sleep => E.served []
  | .getpid => E.served []
  | .lseek => E.served []
  | .uptime => E.served []
  | .netPing => E.served []
  | .kill => E.served []
  | .fork => E.served []
  | .setTidAddress => E.served []
  | .mmap => E.served []
  | .brk => E.served []
  | .munmap => E.served []
  | .mprotect => E.served []
  | .balloon => E.served []

/-! ## Every case but one stays in user space -/

lemma inUser_buf {ptr len n : Nat} (hp : ptr < 2 ^ 64) (hl : len < 2 ^ 64)
    (hok : ¬ userBufOk ptr len = false) (hn : n ≤ len) : InUser [⟨ptr, n⟩] := by
  have hbound := userBufOk_bound hp hl (Bool.eq_true_of_not_eq_false hok) hn
  exact inUser_cons.2 ⟨fun a => touches_lt hbound, inUser_nil⟩

lemma transferServed_inUser (E : CallEnv) {op : DevEnv → FdTable → Nat → Nat → Nat → List Span}
    (hop : ∀ D t fd buf count, Within buf count (op D t fd buf count)) (hbuf : buf < 2 ^ 64)
    (hcount : count < 2 ^ 64) :
    InUser (transferServed E op fd buf count).touched := by
  unfold transferServed
  split
  · exact inUser_nil
  · split_ifs with hok
    · exact (hop _ _ _ _ _).inUser hbuf hcount hok
    · exact inUser_nil

lemma openServed_inUser (E : CallEnv) (fuel path flags : Nat) :
    InUser (openServed E fuel path flags).touched := by
  have hscan := userStrOk_inUser E.mem path
  unfold openServed
  dsimp only
  split
  · exact inUser_nil
  split
  · exact hscan
  rename_i hok
  have hterm := userStrOk_terminated hok
  have hopen := fdOpenEx_inUser E.fs fuel flags hterm
  split
  · refine inUser_append.2 ⟨inUser_append.2 ⟨hscan, hopen⟩, ?_⟩
    exact inUser_cons.2 ⟨vfsResolve_inUser _ fuel hterm, inUser_nil⟩
  · exact inUser_append.2 ⟨hscan, hopen⟩

lemma inUser_string (hok : ¬ (userStrOk mem p).1 < 0) :
    InUser [⟨p, (userStrOk mem p).1.toNat + 1⟩] := by
  have hlt := (userStrOk_terminated hok).1
  exact inUser_cons.2 ⟨fun a => touches_lt (.inr (by omega)), inUser_nil⟩

/-- Every slot and every string of the argument vector is validated before it is read. -/
lemma captureArgv_inUser (mem : UserMem) (argv : Nat) :
    ∀ n argc bytes, InUser (captureArgv mem argv n argc bytes).2 := by
  intro n
  induction n with
  | zero =>
    intro argc bytes
    exact inUser_nil
  | succ n ih =>
    intro argc bytes
    rw [captureArgv]
    split_ifs with hslot
    · exact inUser_nil
    have hslot : InUser [⟨add64 argv (argc * 8), 8⟩] :=
      inUser_buf (Nat.mod_lt _ (by decide)) (by decide) hslot (le_refl 8)
    have hscan := userStrOk_inUser mem (load64 mem (add64 argv (argc * 8)))
    dsimp only
    split
    · exact hslot
    split
    · exact inUser_append.2 ⟨hslot, hscan⟩
    rename_i hok
    split
    · exact inUser_append.2 ⟨hslot, hscan⟩
    · exact inUser_append.2 ⟨inUser_append.2 ⟨hslot, hscan⟩,
        inUser_append.2 ⟨inUser_string hok, ih _ _⟩⟩

lemma execServed_inUser (E : CallEnv) (fuel path argv : Nat) :
    InUser (execServed E fuel path argv).touched := by
  have hscan := userStrOk_inUser E.mem path
  have hargv : InUser (if argv = 0 then (some [], []) else captureArgv E.mem argv 32 0 0).2 := by
    split
    · exact inUser_nil
    · exact captureArgv_inUser E.mem argv 32 0 0
  unfold execServed
  dsimp only
  split
  · exact hscan
  rename_i hok
  split
  · exact hscan
  have hpre := inUser_append.2 ⟨hscan, hargv⟩
  split
  · exact hpre
  split
  · exact hpre
  -- the path is read again by `fd_open` and by the message that names it
  have hterm := userStrOk_terminated hok
  have hopen := fdOpenEx_inUser E.fs fuel 0 hterm
  refine inUser_append.2 ⟨inUser_append.2 ⟨hpre, hopen⟩, ?_⟩
  split
  · have hlen : strlenReads E.mem fuel path ≤ _ := strlenReads_le hterm
    have hlt := hterm.1
    exact inUser_cons.2 ⟨fun a => touches_lt (.inr (by omega)), inUser_nil⟩
  · exact inUser_nil

/-- Records are laid out one after the other inside the buffer. -/
lemma getdentsFill_within (out count : Nat) :
    ∀ (ds : List DirRead) (used : Nat), Within out count (getdentsFill out count ds used).2.2 := by
  intro ds
  induction ds with
  | nil =>
    intro used
    exact within_nil out count
  | cons d ds ih =>
    intro used
    cases d with
    | error =>
      rw [getdentsFill.eq_def]
      dsimp only
      split
      · exact within_nil out count
      · exact within_nil out count
    | entry namelen =>
      rw [getdentsFill.eq_def]
      dsimp only
      split
      · exact within_nil out count
      split
      · exact within_nil out count
      -- a piece of `n` bytes at offset `off` of the buffer
      have hpiece : ∀ off n, off + n ≤ count →
          ∀ a, Span.Touches ⟨add64 out off, n⟩ a → Span.Touches ⟨out, count⟩ a := by
        rintro off n hle a ⟨i, hi, rfl⟩
        have hi : i < n := hi
        refine ⟨off + i, ?_, ?_⟩
        · show off + i < count
          omega
        · simp only [add64]
          omega
      intro r hr
      rcases List.mem_cons.1 hr with rfl | hr
      · exact hpiece _ _ (by omega)
      rcases List.mem_cons.1 hr with rfl | hr
      · exact hpiece _ _ (by omega)
      rcases List.mem_cons.1 hr with rfl | hr
      · exact hpiece _ _ (by omega)
      · exact ih _ r hr

section
variable (E : CallEnv)
include E

lemma getdentsServed_inUser {out : Nat} (hout : out < 2 ^ 64) (hcount : count < 2 ^ 64) :
    InUser (getdentsServed E fd out count).touched := by
  unfold getdentsServed
  split
  · exact inUser_nil
  split
  · exact inUser_nil
  split
  · exact inUser_nil
  split_ifs with hok
  · exact inUser_nil
  have hfill := (getdentsFill_within out count E.entries 0).inUser hout hcount
    (Bool.eq_true_of_not_eq_false hok)
  dsimp only
  split
  · exact hfill
  · exact hfill

lemma waitpidServed_inUser {status : Nat} (hstatus : status < 2 ^ 64) :
    InUser (waitpidServed E status).touched := by
  unfold waitpidServed
  split
  · exact inUser_nil
  rename_i hok
  split
  · exact inUser_nil
  split_ifs with hne
  · exact inUser_nil
  · exact inUser_buf hstatus (by decide) (fun h => hok ⟨hne, h⟩) (le_refl 4)

lemma nanosleepServed_inUser {req rem : Nat} (hreq : req < 2 ^ 64)
    (hrem : rem < 2 ^ 64) : InUser (nanosleepServed E req rem).touched := by
  unfold nanosleepServed
  split
  · exact inUser_nil
  rename_i hok
  have hread := inUser_buf hreq (by decide) hok (le_refl 16)
  dsimp only
  split
  · exact hread
  split
  · exact hread
  split_ifs with hok'
  · exact hread
  · exact inUser_append.2 ⟨hread, inUser_buf hrem (by decide) hok' (le_refl 16)⟩

lemma getrandomServed_inUser (hbuf : buf < 2 ^ 64) (hcount : count < 2 ^ 64) :
    InUser (getrandomServed E buf count).touched := by
  unfold getrandomServed
  split
  · exact inUser_nil
  split
  · exact inUser_nil
  rename_i hok
  have hfill := inUser_buf hbuf hcount hok (Nat.mod_le count (2 ^ 32))
  split
  · exact hfill
  · exact hfill

lemma fstatServed_inUser (hbuf : statbuf < 2 ^ 64) : InUser (fstatServed E fd statbuf).touched := by
  unfold fstatServed
  split
  · exact inUser_nil
  split_ifs with hok
  · exact inUser_nil
  · exact inUser_buf hbuf (by decide) hok (le_refl 128)

end

lemma clockGettimeServed_inUser {clock ts : Nat} (hts : ts < 2 ^ 64) :
    InUser (clockGettimeServed clock ts).touched := by
  unfold clockGettimeServed
  split
  · exact inUser_nil
  split_ifs with hok
  · exact inUser_nil
  · exact inUser_buf hts (by decide) hok (le_refl 16)

lemma archPrctlServed_inUser (E : CallEnv) (code addr : Nat) :
    InUser (archPrctlServed E code addr).touched := by
  unfold archPrctlServed
  repeat' split
  all_goals exact inUser_nil

/-! ## `newfstatat` -/

/-- The `newfstatat` calls that resolve a path leading out of user space: the checks that work are
passed, and the path is one that resolution follows past the top. -/
def StatPathEscapes (E : CallEnv) (dirfd path statbuf flags : Nat) : Prop :=
  isAtFdcwd dirfd = true ∧ userBufOk statbuf 128 = true ∧ (flags = 0 ∨ flags = 0x100) ∧
    PathEscapes E.fs.tree E.mem path

lemma not_pathEscapes_of_terminated (V : Vfs) {j : Nat} (h : Terminated mem p j) :
    ¬ PathEscapes V mem p := by
  have hlt := h.1
  rintro (hge | ⟨-, hnul, -⟩)
  · omega
  · exact hnul (p + j) (by omega) hlt h.2

/-- What a `newfstatat` call touches stays in user space, for every fuel, exactly when its path does
not escape. -/
lemma newfstatatServed_inUser_iff (E : CallEnv) {dirfd path flags : Nat} (hpath : path < 2 ^ 64)
    (hbuf : statbuf < 2 ^ 64) :
    (∀ fuel, InUser (newfstatatServed E fuel dirfd path statbuf flags).touched) ↔
      ¬ StatPathEscapes E dirfd path statbuf flags := by
  have hscan := userStrOk_inUser E.mem path
  by_cases hcwd : isAtFdcwd dirfd = false
  · refine iff_of_true ?_ ?_
    · intro fuel
      rw [newfstatatServed, if_pos hcwd]
      exact inUser_nil
    · rintro ⟨h, -⟩
      rw [hcwd] at h
      cases h
  by_cases hrej : (userStrOk E.mem path).1 = 0 ∨ userBufOk statbuf 128 = false
  · -- the empty path or a bad buffer: only the scan of the validator has happened
    refine iff_of_true ?_ ?_
    · intro fuel
      rw [newfstatatServed, if_neg hcwd]
      rw [if_pos hrej]
      exact hscan
    rintro ⟨-, hok, -, hesc⟩
    rcases hrej with hempty | hbad
    · exact not_pathEscapes_of_terminated _ (userStrOk_eq_zero hempty) hesc
    · rw [hbad] at hok
      cases hok
  by_cases hflags : flags ≠ 0 ∧ flags ≠ 0x100
  · refine iff_of_true ?_ ?_
    · intro fuel
      rw [newfstatatServed, if_neg hcwd]
      rw [if_neg hrej, if_pos hflags]
      exact hscan
    · rintro ⟨-, -, h, -⟩
      exact h.elim hflags.1 hflags.2
  -- the path is resolved, whatever the validator said about it
  have hok : userBufOk statbuf 128 = true := Bool.eq_true_of_not_eq_false fun h => hrej (.inr h)
  have hstat : InUser [⟨statbuf, 128⟩] :=
    inUser_buf hbuf (by decide) (fun h => hrej (.inr h)) (le_refl 128)
  have hesc : StatPathEscapes E dirfd path statbuf flags ↔ PathEscapes E.fs.tree E.mem path := by
    refine ⟨fun h => h.2.2.2, fun h => ⟨Bool.eq_true_of_not_eq_false hcwd, hok, ?_, h⟩⟩
    by_contra hne
    exact hflags (not_or.1 hne)
  rw [hesc, ← vfsResolve_inUser_iff E.fs.tree E.mem hpath]
  refine forall_congr' fun fuel => ?_
  rw [newfstatatServed, if_neg hcwd]
  dsimp only
  rw [if_neg hrej, if_neg hflags]
  split
  · simp only [failed, inUser_append, inUser_cons]
    exact ⟨fun h => h.2.1, fun h => ⟨hscan, h, inUser_nil⟩⟩
  · rw [inUser_append, inUser_cons]
    exact ⟨fun h => h.2.1, fun h => ⟨hscan, h, hstat⟩⟩

/-! ## All calls -/

section
variable (E : CallEnv)

/-- Address `a` is dereferenced through a user-supplied pointer while the call is served. -/
def Dereferences (f : TrapFrame) (a : Nat) : Prop :=
  ∃ fuel, ∃ r ∈ (syscallDispatch E fuel f).touched, r.Touches a

lemma dereferences_lt_iff (f : TrapFrame) :
    (∀ a, Dereferences E f a → a < userVaTop) ↔ ∀ fuel, InUser (syscallDispatch E fuel f).touched := by
  constructor
  · intro h fuel r hr a ha
    exact h a ⟨fuel, r, hr, ha⟩
  · rintro h a ⟨fuel, r, hr, ha⟩
    exact h fuel r hr a ha

/-- Every case other than `newfstatat` touches user addresses only. -/
lemma syscallDispatch_inUser (fuel : Nat) (f : TrapFrame)
    (h : sysNo f.num.toNat ≠ .newfstatat) : InUser (syscallDispatch E fuel f).touched := by
  have h0 := f.arg0.toNat_lt
  have h1 := f.arg1.toNat_lt
  have h2 := f.arg2.toNat_lt
  unfold syscallDispatch
  dsimp only
  split
  case h_1 => exact transferServed_inUser E fdRead_within h1 h2
  case h_2 => exact transferServed_inUser E fdWrite_within h1 h2
  case h_3 => exact openServed_inUser E fuel _ _
  case h_4 =>
      split
      · exact openServed_inUser E fuel _ _
      · exact inUser_nil
  case h_5 => exact execServed_inUser E fuel _ _
  case h_6 => exact waitpidServed_inUser E h1
  case h_7 => exact getdentsServed_inUser E h1 h2
  case h_8 => exact clockGettimeServed_inUser h1
  case h_9 => exact nanosleepServed_inUser E h0 h1
  case h_10 => exact getrandomServed_inUser E h0 h1
  case h_11 => exact fstatServed_inUser E h1
  case h_12 => exact absurd (by assumption) h
  case h_13 => exact archPrctlServed_inUser E _ _
  -- the cases without a pointer
  all_goals exact inUser_nil

/-- A call dereferences user addresses only, unless it is a `newfstatat` whose path leads out of
user space: then, and only then, an address at or above `USER_VA_TOP` is read. -/
theorem user_pointers_checked_iff (f : TrapFrame) :
    (∀ a, Dereferences E f a → a < userVaTop) ↔
      ¬ (sysNo f.num.toNat = .newfstatat ∧
        StatPathEscapes E f.arg0.toNat f.arg1.toNat f.arg2.toNat f.arg3.toNat) := by
  rw [dereferences_lt_iff]
  by_cases hnum : sysNo f.num.toNat = .newfstatat
  · rw [and_iff_right hnum, ← newfstatatServed_inUser_iff E f.arg1.toNat_lt f.arg2.toNat_lt]
    refine forall_congr' fun fuel => ?_
    rw [syscallDispatch, hnum]
  · refine iff_of_true ?_ fun h => hnum h.1
    intro fuel
    exact syscallDispatch_inUser E fuel f hnum

end

/-- A file system with nothing but its root. -/
def bareVfs : Vfs := ⟨0, fun _ => true, fun _ => none, fun _ _ => none⟩

/-- A call made with zeroed memory and no open descriptor. -/
def bareEnv : CallEnv where
  mem := fun _ => 0
  fds := none
  fs := ⟨bareVfs, bareVfs, [], false, false, -1, fun _ h => absurd h List.not_mem_nil⟩
  dev := ⟨none, 0, false, none, 0, false⟩
  entries := []
  result := 0
  resultErrno := none
  printsPath := false

/-- `newfstatat(AT_FDCWD, 0xFFFF000040000000, 0x1000000, 0)` reads the kernel address it was given
as a path. -/
theorem newfstatat_reads_kernel_address :
    Dereferences bareEnv ⟨79, 0xFFFFFFFFFFFFFF9C, 0xFFFF000040000000, 0x1000000, 0, 0, 0⟩
        0xFFFF000040000000 ∧
      ¬ 0xFFFF000040000000 < userVaTop := by
  refine ⟨⟨1, ⟨0xFFFF000040000000, 1⟩, ?_, 0, ?_, ?_⟩, ?_⟩
  · decide
  · decide
  · decide
  · decide

end FermiOs
