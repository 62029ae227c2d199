import FermiOs.Syscall.UserMem

/-!
# Path resolution and file operations on user buffers

`vfs_resolve` and the descriptor layer of `fs/vfs/vfs.c`, with the path scans of
`fs/fat32/fat32_vfs.c` and the read and write operations of `devices/devices.c`, `fs/proc/proc.c` and
`fs/fat32/fat32_vfs.c`, as far as they follow a pointer handed in by a caller: which bytes of the
path and of the buffer each of them touches. What the disk, the generators of `/proc` and the
allocator answer is a parameter.
-/

namespace FermiOs
open List

/-! ## Path resolution -/

/-- The vnode tree as the lookups of one resolution see it. `child` is `find_child`: the cached
children, then the file system's own lookup. -/
structure Vfs where
  root : Nat
  isDir : Nat → Bool
  parent : Nat → Option Nat
  child : Nat → List UInt8 → Option Nat

/-- One path component: `cur` must be a directory, `.` stays, `..` goes to the parent if there is
one, any other name is looked up. -/
def Vfs.enter (V : Vfs) (cur : Nat) (name : List UInt8) : Option Nat :=
  if V.isDir cur = false then none
  else if name = [46] then some cur
  else if name = [46, 46] then some ((V.parent cur).getD cur)
  else V.child cur name

/-- The loop of `vfs_resolve_at`, one byte of the path at a time: the number of bytes read and the
vnode found. `name` holds the bytes of the component under the `end` scan; it is empty while
`while (*path == '/')` runs. -/
def resolveWalk (V : Vfs) (mem : UserMem) : Nat → Nat → List UInt8 → Nat → Nat × Option Nat
  | 0, _, _, _ => (0, none)
  | n + 1, cur, name, path =>
    if mem path = 0 then (1, if name = [] then some cur else V.enter cur name)
    else if mem path = 47 then
      match (if name = [] then some cur else V.enter cur name) with
      | none => (1, none)
      | some next =>
        let r := resolveWalk V mem n next [] (add64 path 1)
        (r.1 + 1, r.2)
    else
      let r := resolveWalk V mem n cur (name ++ [mem path]) (add64 path 1)
      (r.1 + 1, r.2)

/-- `vfs_resolve`. A leading slash only restarts at the root, which is where every path starts. -/
def vfsResolve (V : Vfs) (mem : UserMem) (fuel path : Nat) : Nat × Option Nat :=
  if path = 0 then (0, none) else resolveWalk V mem fuel V.root [] path

/-- Resolution of a list of component names. -/
def Vfs.resolveNames (V : Vfs) : Nat → List (List UInt8) → Option Nat
  | cur, [] => some cur
  | cur, name :: names => (V.enter cur name).bind fun next => V.resolveNames next names

/-- The components of a byte string that a slash closes; `name` is the one begun before it. -/
def closedNames : List UInt8 → List UInt8 → List (List UInt8)
  | _, [] => []
  | name, b :: bs =>
    if b = 47 then
      if name = [] then closedNames [] bs else name :: closedNames [] bs
    else closedNames (name ++ [b]) bs

variable {j p : Nat} {mem : UserMem}

section
variable (V : Vfs)
include V

/-- Resolution never reads past the terminator of the path. -/
lemma resolveWalk_le : ∀ (n cur : Nat) (name : List UInt8) {p j : Nat}, Terminated mem p j →
      (resolveWalk V mem n cur name p).1 ≤ j + 1 := by
  intro n
  induction n with
  | zero =>
    intro cur name p j _
    exact Nat.zero_le _
  | succ n ih =>
    intro cur name p j h
    rw [resolveWalk]
    by_cases hz : mem p = 0
    · rw [if_pos hz]
      exact Nat.le_add_left 1 j
    rw [if_neg hz]
    obtain ⟨hadd, hj, hnext⟩ := h.advance hz
    rw [hadd]
    -- every other byte moves the scan one byte closer to the terminator
    have hrec : ∀ c nm, (resolveWalk V mem n c nm (p + 1)).1 + 1 ≤ j + 1 := by
      intro c nm
      have := ih c nm hnext
      omega
    split
    · split
      · exact Nat.le_add_left 1 j
      · exact hrec _ _
    · exact hrec _ _

/-- A path without a terminator in its next `bs.length` bytes is read through to the byte after
them exactly when every component closed by then resolves. -/
lemma resolveWalk_reaches_iff :
    ∀ (bs : List UInt8) (n cur : Nat) (name : List UInt8) {p : Nat}, bs.length < n →
      p + bs.length ≤ userVaTop → (∀ i (hi : i < bs.length), mem (p + i) = bs[i]) →
      (∀ b ∈ bs, b ≠ 0) →
      (bs.length < (resolveWalk V mem n cur name p).1 ↔
        (V.resolveNames cur (closedNames name bs)).isSome = true) := by
  intro bs
  induction bs with
  | nil =>
    intro n cur name p hn _ _ _
    -- the byte after the last one is always inspected
    obtain ⟨m, rfl⟩ : ∃ m, n = m + 1 := ⟨n - 1, by simp at hn; omega⟩
    refine iff_of_true ?_ rfl
    rw [resolveWalk]
    repeat' split
    all_goals exact Nat.succ_pos _
  | cons b bs ih =>
    intro n cur name p hn hp hmem hne
    obtain ⟨m, rfl⟩ : ∃ m, n = m + 1 := ⟨n - 1, by simp at hn; omega⟩
    have hb : mem p = b := hmem 0 (Nat.succ_pos _)
    have hb0 : mem p ≠ 0 := hb ▸ hne b mem_cons_self
    simp only [length_cons] at hn hp
    have hadd : add64 p 1 = p + 1 := add64_of_lt_top (by omega)
    -- the induction hypothesis at the next byte, for whatever directory and name it starts from
    have hrec : ∀ c nm, bs.length < (resolveWalk V mem m c nm (p + 1)).1 ↔
        (V.resolveNames c (closedNames nm bs)).isSome = true := by
      intro c nm
      refine ih m c nm (by omega) (by omega) ?_ fun b' hb' => hne b' (mem_cons_of_mem _ hb')
      intro i hi
      have := hmem (i + 1) (Nat.succ_lt_succ hi)
      rw [show p + 1 + i = p + (i + 1) by omega, this]
      rfl
    rw [resolveWalk, if_neg hb0, hadd, length_cons, closedNames, ← hb]
    by_cases hslash : mem p = 47
    · rw [if_pos hslash, if_pos hslash]
      by_cases hname : name = []
      · rw [if_pos hname, if_pos hname]
        exact Nat.succ_lt_succ_iff.trans (hrec _ _)
      rw [if_neg hname, if_neg hname, Vfs.resolveNames]
      cases henter : V.enter cur name with
      | none =>
        refine iff_of_false ?_ ?_
        · exact Nat.not_lt.2 (Nat.le_add_left 1 _)
        · exact Bool.false_ne_true
      | some next => exact Nat.succ_lt_succ_iff.trans (hrec _ _)
    · rw [if_neg hslash, if_neg hslash]
      exact Nat.succ_lt_succ_iff.trans (hrec _ _)

/-- The bytes of user memory from `p` up to the top of user space. -/
def bytesToTop (mem : UserMem) (p : Nat) : List UInt8 :=
  (range (userVaTop - p)).map fun i => mem (p + i)

/-- A path that resolution follows out of user space: it starts there, or nothing terminates it
below the top and every component closed below the top resolves. -/
def PathEscapes (V : Vfs) (mem : UserMem) (p : Nat) : Prop :=
  userVaTop ≤ p ∨
    (p ≠ 0 ∧ (∀ a, p ≤ a → a < userVaTop → mem a ≠ 0) ∧
      (V.resolveNames V.root (closedNames [] (bytesToTop mem p))).isSome = true)

lemma resolveWalk_le_fuel :
    ∀ (n cur : Nat) (name : List UInt8) (p : Nat), (resolveWalk V mem n cur name p).1 ≤ n := by
  intro n
  induction n with
  | zero =>
    intro cur name p
    exact le_refl 0
  | succ n ih =>
    intro cur name p
    rw [resolveWalk]
    repeat' split
    all_goals first
      | exact Nat.succ_le_succ (ih _ _ _)
      | exact Nat.le_add_left 1 n

lemma resolveWalk_pos (mem : UserMem) (n cur : Nat) (name : List UInt8) (p : Nat) :
    0 < (resolveWalk V mem (n + 1) cur name p).1 := by
  rw [resolveWalk]
  repeat' split
  all_goals exact Nat.succ_pos _

/-- Bytes read by resolving a terminated path. -/
lemma vfsResolve_bound (fuel : Nat) (h : Terminated mem p j) :
    p + (vfsResolve V mem fuel p).1 ≤ userVaTop := by
  have hlt := h.1
  rw [vfsResolve]
  split
  · show p + 0 ≤ userVaTop
    omega
  · have := resolveWalk_le V fuel V.root [] h
    omega

/-- With no terminator below the top of user space, resolution reads the byte at the top for some
fuel exactly when the closed components resolve. -/
lemma vfsResolve_unterminated (h0 : p ≠ 0) (hlt : p < userVaTop)
    (hnul : ∀ a, p ≤ a → a < userVaTop → mem a ≠ 0) {fuel : Nat} (hfuel : userVaTop - p < fuel) :
    userVaTop - p < (vfsResolve V mem fuel p).1 ↔
      (V.resolveNames V.root (closedNames [] (bytesToTop mem p))).isSome = true := by
  have hlen : (bytesToTop mem p).length = userVaTop - p := by
    rw [bytesToTop, length_map, length_range]
  rw [vfsResolve, if_neg h0, ← hlen]
  apply resolveWalk_reaches_iff
  · omega
  · omega
  · intro i hi
    simp only [bytesToTop, getElem_map, getElem_range]
  · intro b hb
    obtain ⟨i, hi, rfl⟩ := mem_map.1 hb
    have := mem_range.1 hi
    exact hnul (p + i) (by omega) (by omega)

/-- The bytes resolution reads, for any fuel, lie in user space exactly when the path does not
escape. -/
lemma vfsResolve_inUser_iff (mem : UserMem) (hp : p < 2 ^ 64) :
    (∀ fuel a, Span.Touches ⟨p, (vfsResolve V mem fuel p).1⟩ a → a < userVaTop) ↔
      ¬ PathEscapes V mem p := by
  by_cases hstart : userVaTop ≤ p
  · -- the first byte read is already outside
    refine iff_of_false ?_ (not_not_intro (.inl hstart))
    intro h
    have h0 : p ≠ 0 := by
      have : 0 < userVaTop := by decide
      omega
    have hread : 0 < (vfsResolve V mem 1 p).1 := by
      rw [vfsResolve, if_neg h0]
      exact resolveWalk_pos V mem 0 _ _ _
    have hself : p = add64 p 0 := (Nat.mod_eq_of_lt hp).symm
    exact absurd (h 1 p ⟨0, hread, hself⟩) (Nat.not_lt.2 hstart)
  have hlt : p < userVaTop := Nat.lt_of_not_le hstart
  by_cases h0 : p = 0
  · -- a null path is refused before anything is read
    refine iff_of_true ?_ ?_
    · intro fuel a
      rw [vfsResolve, if_pos h0]
      exact touches_lt (.inl rfl)
    · rintro (h | ⟨h, -⟩)
      · exact hstart h
      · exact h h0
  by_cases hnul : ∀ a, p ≤ a → a < userVaTop → mem a ≠ 0
  · rw [show PathEscapes V mem p ↔
        (V.resolveNames V.root (closedNames [] (bytesToTop mem p))).isSome = true from
      ⟨fun h => h.elim (fun h => absurd h hstart) (fun h => h.2.2), fun h => .inr ⟨h0, hnul, h⟩⟩]
    constructor
    · intro h hsome
      have hreach := (vfsResolve_unterminated V h0 hlt hnul (Nat.lt_succ_self _)).2 hsome
      have htop : add64 p (userVaTop - p) = userVaTop := by
        rw [add64_of_lt_top (by omega)]
        omega
      exact absurd (h _ userVaTop ⟨_, hreach, htop.symm⟩) (lt_irrefl _)
    intro hnone fuel a
    apply touches_lt
    right
    -- too little fuel to get there, or a component that stops the walk
    by_cases hfuel : userVaTop - p < fuel
    · have := mt (vfsResolve_unterminated V h0 hlt hnul hfuel).1 hnone
      omega
    · have : (vfsResolve V mem fuel p).1 ≤ fuel := by
        rw [vfsResolve, if_neg h0]
        exact resolveWalk_le_fuel V _ _ _ _
      omega
  refine iff_of_true ?_ ?_
  · push Not at hnul
    obtain ⟨a, ha, hatop, hz⟩ := hnul
    intro fuel b
    have hterm : Terminated mem p (a - p) := by
      rw [Terminated, show p + (a - p) = a by omega]
      exact ⟨hatop, hz⟩
    exact touches_lt (.inr (vfsResolve_bound V fuel hterm))
  · rintro (h | ⟨-, h, -⟩)
    · exact hstart h
    · exact hnul h

/-! ## Opening a path -/

/-- What one `open` finds outside the caller's memory: the tree before and after a file is created,
the mount path of the FAT32 volume, whether its create hook is installed, whether the creation
succeeds, and the descriptor (or `-1`) the rest of `fd_open_ex` ends with. -/
structure FsEnv where
  tree : Vfs
  treeAfter : Vfs
  mount : List UInt8
  hooked : Bool
  created : Bool
  opened : Int
  mount_noNul : ∀ c ∈ mount, c ≠ 0

section
variable (F : FsEnv) (mem : UserMem) (fuel path : Nat)

/-- `fat32_rel_path`: the bytes of the path it reads, and whether the path lies under the mount
point and its rest fits the 128-byte buffer. -/
def fat32RelPath : Bool × List Span :=
  if F.mount = [] then (false, [])
  else
    let cmp := strncmpReads mem F.mount path
    if cmp.2 = false then (false, [⟨path, cmp.1⟩])
    else
      let rest := path + F.mount.length
      let slashes := slashRun mem fuel rest
      let n := strlenReads mem fuel (rest + slashes)
      (decide (n ≤ 128), [⟨path, cmp.1⟩, ⟨rest, slashes + 1⟩, ⟨rest + slashes, n⟩])

/-- `vfs_create_file`, with `fat32_create_file` as the hook. -/
def vfsCreateFile : Bool × List Span :=
  if F.hooked = false then (false, [])
  else
    let r := fat32RelPath F mem fuel path
    (r.1 && F.created, r.2)

end

/-- `O_CREAT` and `O_EXCL` in a flags word. -/
def oCreat (flags : Nat) : Bool := flags.testBit 6

@[inherit_doc oCreat]
def oExcl (flags : Nat) : Bool := flags.testBit 7

/-- `fd_open_ex`: the result and the bytes of the path it reads. After resolution nothing touches
the caller's memory any more. -/
def fdOpenEx (F : FsEnv) (mem : UserMem) (fuel path flags : Nat) : Int × List Span :=
  if 2 < flags % 4 then (-1, [])
  else if oExcl flags && !oCreat flags then (-1, [])
  else
    let r := vfsResolve F.tree mem fuel path
    match r.2 with
    | some _ => (if oCreat flags && oExcl flags then -1 else F.opened, [⟨path, r.1⟩])
    | none =>
      if oCreat flags = false then (-1, [⟨path, r.1⟩])
      else
        let c := vfsCreateFile F mem fuel path
        if c.1 = false then (-1, ⟨path, r.1⟩ :: c.2)
        else
          let r' := vfsResolve F.treeAfter mem fuel path
          (if r'.2.isSome then F.opened else -1, ⟨path, r.1⟩ :: c.2 ++ [⟨path, r'.1⟩])

lemma vfsResolve_inUser (fuel : Nat) (h : Terminated mem p j) :
    ∀ a, Span.Touches ⟨p, (vfsResolve V mem fuel p).1⟩ a → a < userVaTop := by
  intro a
  exact touches_lt (.inr (vfsResolve_bound V fuel h))

end

lemma fat32RelPath_inUser (F : FsEnv) (fuel : Nat) (h : Terminated mem p j) :
    InUser (fat32RelPath F mem fuel p).2 := by
  have hlt := h.1
  have hcmp : p + (strncmpReads mem F.mount p).1 ≤ userVaTop := by
    have : (strncmpReads mem F.mount p).1 ≤ j + 1 := strncmpReads_le h
    omega
  unfold fat32RelPath
  split
  · exact inUser_nil
  dsimp only
  split_ifs with heq
  · exact inUser_cons.2 ⟨fun a => touches_lt (.inr hcmp), inUser_nil⟩
  -- each stage starts where the last one stopped, still before the terminator
  obtain ⟨hm, hrest⟩ := strncmpReads_rest F.mount_noNul h (Bool.eq_true_of_not_eq_false heq)
  obtain ⟨hs, hname⟩ := slashRun_rest (n := fuel) hrest
  have hlen := strlenReads_le (n := fuel) hname
  simp only [inUser_cons]
  refine ⟨fun a => touches_lt (.inr hcmp), fun a => touches_lt (.inr ?_),
    fun a => touches_lt (.inr ?_), inUser_nil⟩
  · omega
  · omega

/-- A validated path is read inside user space only, whatever the file system answers. -/
lemma fdOpenEx_inUser (F : FsEnv) (fuel flags : Nat) (h : Terminated mem p j) :
    InUser (fdOpenEx F mem fuel p flags).2 := by
  have hcreate : InUser (vfsCreateFile F mem fuel p).2 := by
    unfold vfsCreateFile
    split
    · exact inUser_nil
    · exact fat32RelPath_inUser F fuel h
  have hwalk : InUser [⟨p, (vfsResolve F.tree mem fuel p).1⟩] :=
    inUser_cons.2 ⟨vfsResolve_inUser F.tree fuel h, inUser_nil⟩
  have hwalk' : InUser [⟨p, (vfsResolve F.treeAfter mem fuel p).1⟩] :=
    inUser_cons.2 ⟨vfsResolve_inUser F.treeAfter fuel h, inUser_nil⟩
  unfold fdOpenEx
  split
  · exact inUser_nil
  split
  · exact inUser_nil
  dsimp only
  split
  · exact hwalk
  split
  · exact hwalk
  split
  · exact inUser_append.2 ⟨hwalk, hcreate⟩
  · exact inUser_append.2 ⟨inUser_append.2 ⟨hwalk, hcreate⟩, hwalk'⟩

/-! ## Reading and writing through a descriptor -/

/-- The operations tables a vnode can carry: the devices of `devices_register`, the files of
`/proc`, FAT32 files, and directories, which have none. -/
inductive Driver
  | console
  | null
  | zero
  | rng
  | blk
  | vcons
  | proc
  | fat32
  | dir
  deriving DecidableEq

/-- `file_t` with the fields of its vnode that the operations read. -/
structure OpenFile where
  driver : Driver
  accMode : Nat
  offset : Nat
  size : Nat

/-- What devices and file systems answer during one transfer: the length a generator of `/proc`
reports, the sectors the disk serves before it fails, whether the scratch buffer of a FAT32 read is
granted, the bytes the volume delivers, the bytes a FAT32 write consumes before it returns, and
whether the virtio console is up. -/
structure DevEnv where
  procLen : Option Nat
  sectors : Nat
  scratch : Bool
  got : Option Nat
  consumed : Nat
  consoleReady : Bool

section
variable (D : DevEnv) (f : OpenFile) (buf count : Nat)

/-- The sectors of a raw block transfer: it stops after the first one that fails. -/
def blkSpans : List Span :=
  if f.offset % 512 ≠ 0 ∨ count % 512 ≠ 0 then []
  else (range (min (D.sectors + 1) (count / 512))).map fun i => ⟨add64 buf (i * 512), 512⟩

/-- `proc_read_via`, with the 2048-byte buffer of the generators. -/
def procSpans : List Span :=
  match D.procLen with
  | none => []
  | some total =>
    let avail := if 2048 ≤ total then 2047 else total
    if avail ≤ f.offset then [] else [⟨buf, min count (avail - f.offset)⟩]

/-- `fat32_file_read`. -/
def fat32ReadSpans : List Span :=
  if f.size ≤ f.offset then []
  else
    let toRead := min (f.size - f.offset) count % 2 ^ 32
    let totalNeeded := (f.offset + toRead) % 2 ^ 32
    if D.scratch = false then []
    else
      match D.got with
      | none => []
      | some got =>
        if got % 2 ^ 32 ≤ f.offset % 2 ^ 32 then []
        else if got % 2 ^ 32 < totalNeeded then
          [⟨buf, (got % 2 ^ 32 - f.offset % 2 ^ 32)⟩]
        else [⟨buf, toRead⟩]

/-- The bytes of the buffer a `read` operation writes. -/
def readSpans : List Span :=
  match f.driver with
  | .console => [⟨buf, count⟩]
  | .zero => [⟨buf, count⟩]
  | .rng => [⟨buf, count % 2 ^ 32⟩]
  | .blk => blkSpans D f buf count
  | .proc => procSpans D f buf count
  | .fat32 => fat32ReadSpans D f buf count
  | .null => []
  | .vcons => []
  | .dir => []

/-- The bytes of the buffer a `write` operation reads. -/
def writeSpans : List Span :=
  match f.driver with
  | .console => [⟨buf, count⟩]
  | .blk => blkSpans D f buf count
  | .vcons => if D.consoleReady then [⟨buf, count % 2 ^ 32⟩] else []
  | .fat32 => if count = 0 then [] else [⟨buf, min D.consumed (count % 2 ^ 32)⟩]
  | .null => []
  | .zero => []
  | .rng => []
  | .proc => []
  | .dir => []

end

/-- A descriptor table: `MAX_FDS` slots, some of them open. -/
abbrev FdTable := Nat → Option OpenFile

/-- The slot an `int fd` names, if it is in range and open. -/
def fdSlot (t : FdTable) (fd : Nat) : Option OpenFile :=
  if fd % 2 ^ 32 < 64 then t (fd % 2 ^ 32) else none

section
variable (D : DevEnv) (t : FdTable) (fd buf count : Nat)

/-- The bytes `fd_read` touches: a write-only descriptor is refused. -/
def fdRead : List Span :=
  match fdSlot t fd with
  | none => []
  | some f => if f.accMode = 1 then [] else readSpans D f buf count

/-- The bytes `fd_write` touches: a read-only descriptor is refused. -/
def fdWrite : List Span :=
  match fdSlot t fd with
  | none => []
  | some f => if f.accMode = 0 then [] else writeSpans D f buf count

end

/-- Every touched byte belongs to the buffer `[buf, buf + count)`. -/
def Within (buf count : Nat) (rs : List Span) : Prop :=
  ∀ r ∈ rs, ∀ a, r.Touches a → Span.Touches ⟨buf, count⟩ a

lemma within_nil (buf count : Nat) : Within buf count [] := by
  intro r hr
  cases hr

lemma within_front {buf count n : Nat} (h : n ≤ count) : Within buf count [⟨buf, n⟩] := by
  intro r hr a ha
  rw [mem_singleton.1 hr] at ha
  obtain ⟨i, hi, rfl⟩ := ha
  exact ⟨i, lt_of_lt_of_le hi h, rfl⟩

/-- A transfer that stays inside a buffer `user_buf_ok` accepted stays inside user space. -/
lemma Within.inUser {buf count : Nat} {rs : List Span} (h : Within buf count rs)
    (hbuf : buf < 2 ^ 64) (hcount : count < 2 ^ 64) (hok : userBufOk buf count = true) :
    InUser rs := by
  intro r hr a ha
  exact touches_lt (userBufOk_bound hbuf hcount hok (le_refl count)) (h r hr a ha)

variable (D : DevEnv)
include D

section
variable (f : OpenFile) (buf count : Nat)

lemma blkSpans_within : Within buf count (blkSpans D f buf count) := by
  unfold blkSpans
  split_ifs with halign
  · exact within_nil buf count
  intro r hr a ha
  obtain ⟨i, hi, rfl⟩ := mem_map.1 hr
  obtain ⟨k, hk, rfl⟩ := ha
  have hi := mem_range.1 hi
  have hk : k < 512 := hk
  -- byte `k` of sector `i` is byte `i * 512 + k` of the buffer
  refine ⟨i * 512 + k, ?_, ?_⟩
  · show i * 512 + k < count
    omega
  · simp only [add64]
    omega

lemma procSpans_within : Within buf count (procSpans D f buf count) := by
  unfold procSpans
  split
  · exact within_nil buf count
  dsimp only
  generalize (if 2048 ≤ _ then 2047 else _) = avail
  split
  · exact within_nil buf count
  · exact within_front (min_le_left _ _)

lemma fat32ReadSpans_within : Within buf count (fat32ReadSpans D f buf count) := by
  have hread : min (f.size - f.offset) count % 2 ^ 32 ≤ count :=
    (Nat.mod_le _ _).trans (min_le_right _ _)
  unfold fat32ReadSpans
  split
  · exact within_nil buf count
  dsimp only
  split
  · exact within_nil buf count
  split
  · exact within_nil buf count
  split
  · exact within_nil buf count
  split
  · apply within_front
    omega
  · exact within_front hread

end

lemma fdRead_within (t : FdTable) (fd buf count : Nat) :
    Within buf count (fdRead D t fd buf count) := by
  unfold fdRead
  split
  · exact within_nil buf count
  rename_i f _
  split
  · exact within_nil buf count
  unfold readSpans
  cases f.driver with
  | console => exact within_front (le_refl count)
  | zero => exact within_front (le_refl count)
  | rng => exact within_front (Nat.mod_le _ _)
  | blk => exact blkSpans_within D f buf count
  | proc => exact procSpans_within D f buf count
  | fat32 => exact fat32ReadSpans_within D f buf count
  | null => exact within_nil buf count
  | vcons => exact within_nil buf count
  | dir => exact within_nil buf count

lemma fdWrite_within (t : FdTable) (fd buf count : Nat) :
    Within buf count (fdWrite D t fd buf count) := by
  unfold fdWrite
  split
  · exact within_nil buf count
  rename_i f _
  split
  · exact within_nil buf count
  unfold writeSpans
  cases f.driver with
  | console => exact within_front (le_refl count)
  | blk => exact blkSpans_within D f buf count
  | vcons =>
    dsimp only
    split
    · exact within_front (Nat.mod_le _ _)
    · exact within_nil buf count
  | fat32 =>
    dsimp only
    split
    · exact within_nil buf count
    · exact within_front ((min_le_right _ _).trans (Nat.mod_le _ _))
  | null => exact within_nil buf count
  | zero => exact within_nil buf count
  | rng => exact within_nil buf count
  | proc => exact within_nil buf count
  | dir => exact within_nil buf count

end FermiOs
