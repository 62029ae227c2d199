import FermiOs.Fs.Fat32.Runs
import FermiOs.Library.Cursor

/-!
# Reading directories

`getdents64` over `vfs_readdir`, with the reader of built-in directories (`vfs_builtin_readdir`) and
that of the volume (`fat32_readdir` over `fat32_dir_iterate`). The three layers hand a cookie and an
end-of-directory flag upwards. The built-in reader sets the flag together with the last entry, which
`getdents64` then drops; in the volume root the cookies 0 and 1 stand for the two synthesized entries,
and the slots of the same numbers are never looked at.
-/

namespace FermiOs.Fat32
open Library List

/-! ## Entries of a directory of the volume -/

/-- `fat32_dirent_t`. -/
structure Dirent where
  name : List UInt8
  size : Nat
  isDir : Bool
  first : Nat

/-- `shortname_to_display`. -/
def shortnameToDisplay (raw : List UInt8) : List UInt8 :=
  (raw.take 8).takeWhile (· ≠ 32) ++
    if raw.getD 8 0 ≠ 32 then 46 :: (raw.drop 8).takeWhile (· ≠ 32) else []

/-- What `fat32_dir_iterate` reports of an entry. -/
def DirEntry.dirent (e : DirEntry) : Dirent :=
  ⟨shortnameToDisplay e.name, e.size, e.attr &&& 0x10 ≠ 0, e.first⟩

/-- `dirent_synth`. -/
def direntSynth (name : List UInt8) (cluster : Nat) : Dirent := ⟨name, 0, true, cluster⟩

/-- What `fat32_dir_iterate` does at an entry. -/
def listVerdict (e : DirEntry) : Verdict :=
  if e 0 = 0 then .stop
  else if e 0 = 0xE5 then .skip
  else if e.attr = 0x0F then .skip
  else if e.attr &&& 0x08 ≠ 0 then .skip
  else .hit

/-- The entries of a sector from `i` on, where `first` is the number of the first slot of the sector:
the new cookie and the entry, or `none` when all were passed over. -/
def iterScan (b : Sector) (first start : Nat) : Nat → Nat → Option (Nat × Option Dirent)
  | 0, _ => none
  | n + 1, i =>
    if first + i < start then iterScan b first start n (i + 1)
    else
      match listVerdict (slotOf b i) with
      | .stop => some (first + i, none)
      | .skip => iterScan b first start n (i + 1)
      | .hit => some (first + i + 1, some (slotOf b i).dirent)

/-- The sectors of a cluster, from `s` on; sectors before the start are not read. -/
def iterSectors (base slot start : Nat) : Nat → Nat → Io (Option (Nat × Option Dirent))
  | 0, _ => .ret none
  | n + 1, s =>
    if slot + s * 16 + 16 ≤ start then iterSectors base slot start n (s + 1)
    else .read (u32 (base + s)) fun
      | none => .ret (some (slot + s * 16, none))
      | some b =>
        match iterScan b (slot + s * 16) start 16 0 with
        | some r => .ret (some r)
        | none => iterSectors base slot start n (s + 1)

/-- The clusters of a chain; `slot` is the number of the first slot of cluster `c`. -/
def iterChain (v : Vol) (start : Nat) : Nat → Nat → Nat → Io (Nat × Option Dirent)
  | 0, _, slot => .ret (slot, none)
  | n + 1, c, slot =>
    if fatEoc ≤ c then .ret (slot, none)
    else (iterSectors (clusterToSector v c) slot start v.spc 0).bind fun
      | some r => .ret r
      | none => (fatNext v c).bind fun next => iterChain v start n next (slot + v.spc * 16)

/-- `fat32_dir_iterate`: the new cookie, and an entry unless the directory has ended. -/
def fat32DirIterate (v : Vol) (dir offset : Nat) : Io (Nat × Option Dirent) :=
  if dir = v.root ∧ offset = 0 then .ret (1, some (direntSynth [46] dir))
  else if dir = v.root ∧ offset = 1 then .ret (2, some (direntSynth [46, 46] dir))
  else
    let base := if dir = v.root then 2 else 0
    iterChain v (max base offset) (v.entries + 1) dir 0

/-! ## Readers -/

/-- `vfs_dirent_t`. -/
structure VfsDirent where
  name : List UInt8
  size : Nat
  isDir : Bool
  id : Nat

/-- A child of a built-in directory. -/
structure Child where
  name : List UInt8
  type : VnodeType
  size : Nat
  addr : Nat

/-- What `vfs_builtin_readdir` copies out of a vnode. -/
def Child.dirent (c : Child) : VfsDirent := ⟨c.name.take 255, c.size, c.type = .dir, c.addr⟩

/-- What `fat32_readdir` copies. -/
def Dirent.vfs (e : Dirent) : VfsDirent :=
  ⟨e.name.take 255, e.size, e.isDir, e.first + if e.isDir then 2 ^ 63 else 0⟩

/-- The loop of `vfs_builtin_readdir`: `seen` children were examined, `n` of them copied. The result is
the new cookie, the entries, and whether the list was exhausted. -/
def builtinLoop (offset max : Nat) : List Child → Nat → Nat → Nat × List VfsDirent × Bool
  | [], seen, _ => (seen, [], true)
  | c :: cs, seen, n =>
    if seen < offset then builtinLoop offset max cs (seen + 1) n
    else if n = max then (seen, [], false)
    else
      let r := builtinLoop offset max cs (seen + 1) (n + 1)
      (r.1, c.dirent :: r.2.1, r.2.2)

/-- `vfs_builtin_readdir`. -/
def vfsBuiltinReaddir (children : List Child) (offset max : Nat) : Nat × List VfsDirent × Bool :=
  builtinLoop offset max children 0 0

/-- `fat32_readdir`. -/
def fat32Readdir (v : Vol) (dir : Nat) : Nat → Nat → Io (Nat × List VfsDirent × Bool)
  | slot, 0 => .ret (slot, [], false)
  | slot, n + 1 =>
    (fat32DirIterate v dir slot).bind fun
      | (slot, none) => .ret (slot, [], true)
      | (slot, some e) =>
        (fat32Readdir v dir slot n).bind fun r => .ret (r.1, e.vfs :: r.2.1, r.2.2)

/-- A directory vnode, with what its reader looks at. -/
inductive DirNode
  | builtin (children : List Child)
  | fat32 (first : Nat)
  | other

/-- `vfs_readdir`; a file system may have no reader. -/
def vfsReaddir (v : Vol) (dir : DirNode) (offset max : Nat) :
    Io (Option (Nat × List VfsDirent × Bool)) :=
  match dir with
  | .builtin children => .ret (some (vfsBuiltinReaddir children offset max))
  | .fat32 first => (fat32Readdir v first offset max).bind fun r => .ret (some r)
  | .other => .ret none

/-! ## The call -/

/-- What a record shows of an entry: its name up to the first zero byte, its identity and its type. -/
structure Shown where
  name : List UInt8
  ino : Nat
  isDir : Bool
  deriving DecidableEq

/-- The part of an entry that goes into its record. -/
def VfsDirent.shown (e : VfsDirent) : Shown := ⟨(e.name.take 256).takeWhile (· ≠ 0), e.id, e.isDir⟩

/-- The length of a record: header, name and zero byte, rounded up to eight. -/
def reclen (s : Shown) : Nat := (19 + s.name.length + 1 + 7) / 8 * 8

/-- `struct linux_dirent64`. -/
structure Record where
  ino : Nat
  off : Nat
  reclen : Nat
  type : Nat
  name : List UInt8

/-- The record of an entry; `off` is the cookie behind it. -/
def Shown.record (s : Shown) (off : Nat) : Record :=
  ⟨s.ino, off, Fat32.reclen s, if s.isDir then 4 else 8, s.name⟩

/-- What a record shows. -/
def Record.shown (r : Record) : Shown := ⟨r.name, r.ino, r.type = 4⟩

/-- The loop of `getdents64` with `used` of `count` bytes written: the new cookie and the records, or
nothing if the directory cannot be read. A round that goes on writes at least one byte. -/
def getdentsLoop (v : Vol) (dir : DirNode) (count : Nat) :
    Nat → Nat → Nat → Io (Option (Nat × List Record))
  | 0, off, _ => .ret (some (off, []))
  | n + 1, off, used =>
    if count ≤ used then .ret (some (off, []))
    else (vfsReaddir v dir off 1).bind fun
      | none => .ret none
      | some (off', [], _) => .ret (some (off', []))
      | some (off', _ :: _, true) => .ret (some (off', []))
      | some (off', e :: _, false) =>
        if count < used + reclen e.shown then .ret (some (off, []))
        else (getdentsLoop v dir count n off' (used + reclen e.shown)).bind fun
          | none => .ret none
          | some (off'', records) => .ret (some (off'', e.shown.record off' :: records))

/-- `getdents64` on a descriptor that stands at `offset`: the offset behind the call, and the records
or an error. -/
def getdents64 (v : Vol) (dir : DirNode) (offset count : Nat) : Io (Nat × Option (List Record)) :=
  (getdentsLoop v dir count count offset 0).bind fun
    | none => .ret (offset, none)
    | some (off, records) => .ret (off, some records)

/-- The results of calls on one descriptor, on a disk that is not written and refuses nothing. -/
def getdentsCalls (v : Vol) (dir : DirNode) (d : Disk) : List Nat → Nat → List (Option (List Record))
  | [], _ => []
  | count :: counts, offset =>
    let r := ((getdents64 v dir offset count).exec d).1
    r.2 :: getdentsCalls v dir d counts r.1

/-! ## The iterator

The three nested loops pass over the slots of the chain as over one list, and `start` slots of it are
skipped. -/

/-- The next entry of a list of slots, the first of which has number `i`. -/
def nextEntry (d : Disk) (start : Nat) : Nat → List Loc → Nat × Option Dirent
  | i, [] => (i, none)
  | i, s :: slots =>
    if i < start then nextEntry d start (i + 1) slots
    else
      match listVerdict (entryAt d s) with
      | .stop => (i, none)
      | .skip => nextEntry d start (i + 1) slots
      | .hit => (i + 1, some (entryAt d s).dirent)

variable {dir : DirNode} {first : Nat} {l : List Nat}

section
variable {v : Vol} {d : Disk} {start : Nat}

lemma nextEntry_skip (slots rest : List Loc) : ∀ i, i + slots.length ≤ start →
    nextEntry d start i (slots ++ rest) = nextEntry d start (i + slots.length) rest := by
  induction slots with
  | nil => exact fun i _ => rfl
  | cons s slots ih =>
    intro i h
    rw [length_cons] at h ⊢
    rw [cons_append, nextEntry, if_pos (by omega), ih (i + 1) (by omega)]
    congr 1
    omega

/-- The scan of one sector. -/
lemma nextEntry_scan {n : Nat} (rest : List Loc) (m : Nat) : ∀ i,
    nextEntry d start (first + i) ((range m).map (fun j => (n, i + j)) ++ rest) =
      (iterScan (d n) first start m i).getD (nextEntry d start (first + i + m) rest) := by
  induction m with
  | zero => exact fun i => rfl
  | succ m ih =>
    intro i
    have hnext := ih (i + 1)
    rw [← add_assoc, add_right_comm _ 1 m] at hnext
    have hentry : entryAt d (n, i) = slotOf (d n) i := rfl
    rw [range_succ_map (fun j => (n, j)), cons_append, nextEntry, iterScan, hnext, hentry]
    split
    · rfl
    · cases listVerdict (slotOf (d n) i) with
      | stop => rfl
      | skip => rfl
      | hit => rfl

lemma nextEntry_sector {n : Nat} (rest : List Loc) : nextEntry d start first (sectorSlots n ++ rest) =
      (iterScan (d n) first start 16 0).getD (nextEntry d start (first + 16) rest) := by
  have h : nextEntry d start (first + 0) ((range 16).map (fun j => (n, 0 + j)) ++ rest) = _ :=
    nextEntry_scan rest 16 0
  exact h

variable (hv : v.Shaped)
include hv

/-- The sectors of a cluster, where nothing is refused. -/
lemma wp_iterSectors {c slot : Nat} (h2 : 2 ≤ c) (hc : c < v.entries) (n : Nat) : ∀ s, s + n = v.spc →
    (iterSectors (clusterToSector v c) slot start n s).Wp (fun _ => False) d fun r d' => d' = d ∧
      ∀ rest, nextEntry d start (slot + s * 16) ((range n).flatMap
          (fun j => sectorSlots (clusterToSector v c + (s + j))) ++ rest) =
        r.getD (nextEntry d start (slot + v.spc * 16) rest) := by
  induction n with
  | zero =>
    intro s hs
    obtain rfl : s = v.spc := hs
    exact ⟨rfl, fun rest => rfl⟩
  | succ n ih =>
    intro s hs
    have hnext : slot + (s + 1) * 16 = slot + s * 16 + 16 := by omega
    have hrest := ih (s + 1) (by omega)
    rw [hnext] at hrest
    rw [iterSectors, range_succ_flatMap fun j => sectorSlots (clusterToSector v c + j)]
    split_ifs with hskip
    · refine hrest.mono fun r d' ⟨hd, hr⟩ => ⟨hd, fun rest => ?_⟩
      have hlen : (sectorSlots (clusterToSector v c + s)).length = 16 := by
        rw [sectorSlots, length_map, length_range]
      rw [append_assoc, nextEntry_skip _ _ _ (by rw [hlen]; exact hskip), hlen]
      exact hr rest
    have hin : InCluster v c (clusterToSector v c + s) := by
      simp only [InCluster]
      omega
    have hsec : u32 (clusterToSector v c + s) = clusterToSector v c + s :=
      Nat.mod_eq_of_lt (hin.bounds hv h2 hc).2
    rw [hsec]
    refine ⟨?_, fun hf => hf.elim⟩
    dsimp only
    cases hscan : iterScan (d (clusterToSector v c + s)) (slot + s * 16) start 16 0 with
    | none =>
      refine hrest.mono fun r d' ⟨hd, hr⟩ => ⟨hd, fun rest => ?_⟩
      rw [append_assoc, nextEntry_sector, hscan]
      exact hr rest
    | some r =>
      refine ⟨rfl, fun rest => ?_⟩
      rw [append_assoc, nextEntry_sector, hscan]
      rfl

variable (hl : ChainAt v d v.entries first l)
include hl

/-- The clusters of a chain. -/
lemma wp_iterChain (fuel : Nat) :
    ∀ (pre post : List Nat) (c slot : Nat), Standing l pre post c → post.length < fuel →
    (iterChain v start fuel c slot).Wp (fun _ => False) d fun r d' => d' = d ∧
      r = nextEntry d start slot (dirSlots v post) := by
  induction fuel with
  | zero => exact fun _ _ _ _ _ h => absurd h (Nat.not_lt_zero _)
  | succ fuel ih =>
    intro pre post c slot hat hfuel
    rw [iterChain]
    cases post with
    | nil =>
      rw [if_pos (hat.last rfl)]
      exact ⟨rfl, rfl⟩
    | cons x xs =>
      obtain rfl : c = x := hat.here x rfl
      have hmem : c ∈ l := by simp [hat.split]
      have hrange := hl.range c hmem
      rw [if_neg (hl.not_end hv le_rfl c hmem), BlockProg.wp_bind]
      refine (wp_iterSectors hv hrange.1 hrange.2 v.spc 0 (zero_add _)).mono
        fun r d' ⟨hd, hr⟩ => ?_
      subst hd
      have hslots : nextEntry d' start slot (dirSlots v (c :: xs)) =
          r.getD (nextEntry d' start (slot + v.spc * 16) (dirSlots v xs)) := by
        have h := hr (dirSlots v xs)
        simp only [zero_add, zero_mul, add_zero] at h
        exact h
      rw [hslots]
      cases r with
      | some r => exact ⟨rfl, rfl⟩
      | none =>
        rw [BlockProg.wp_bind]
        refine wp_fatNext ?_ fun hf => hf.elim
        exact ih (pre ++ [c]) xs _ _ (hl.standing_next hat) (by simpa using hfuel)

/-- `fat32_dir_iterate` on the slots of the directory. -/
lemma exec_fat32DirIterate (offset : Nat) : (fat32DirIterate v first offset).exec d =
      (if first = v.root ∧ offset = 0 then (1, some (direntSynth [46] first))
        else if first = v.root ∧ offset = 1 then (2, some (direntSynth [46, 46] first))
        else nextEntry d offset 0 (dirSlots v l), d) := by
  rw [fat32DirIterate]
  split
  · rfl
  split
  · rfl
  have hmax : max (if first = v.root then 2 else 0) offset = offset := by
    split
    · omega
    · omega
  have hlen := hl.length_le hv le_rfl
  dsimp only
  rw [hmax]
  have hwp : (iterChain v offset (v.entries + 1) first 0).Wp (fun _ => False) d _ :=
    wp_iterChain hv hl (v.entries + 1) [] l first 0 hl.standing (by omega)
  obtain ⟨hd, hr⟩ := BlockProg.wp_exec.mp hwp
  exact Prod.ext hr hd

end

/-! ## What a round gets -/

/-- The live slots of a list: those before the end mark that are listed. -/
def liveIn (d : Disk) (slots : List Loc) : List Loc :=
  (slots.takeWhile fun s => entryAt d s 0 ≠ 0).filter fun s => (entryAt d s).Listed

/-- `fat32_dir_iterate` on a disk that refuses nothing. -/
def dirNext (v : Vol) (d : Disk) (first c : Nat) : Nat × Option Dirent :=
  ((fat32DirIterate v first c).exec d).1

/-- What `fat32_dir_iterate` should report of the slots. -/
def direntsIn (d : Disk) (slots : List Loc) : List Dirent :=
  (liveIn d slots).map fun s => (entryAt d s).dirent

/-- What a record shows of a slot. -/
def shownAt (d : Disk) (s : Loc) : Shown := (entryAt d s).dirent.vfs.shown

/-- What a round of `getdents64` gets: a cookie, and an entry unless the call ends there. -/
def DirNode.next (v : Vol) (d : Disk) (dir : DirNode) (c : Nat) : Nat × Option Shown :=
  match ((vfsReaddir v dir c 1).exec d).1 with
  | some (off, e :: _, false) => (off, some e.shown)
  | some (off, _, _) => (off, none)
  | none => (c, none)

section
variable {v : Vol} {d : Disk}

/-- Where nothing is skipped any more, the start does not matter. -/
lemma nextEntry_start {start start' : Nat} (slots : List Loc) : ∀ i, start ≤ i → start' ≤ i →
    nextEntry d start i slots = nextEntry d start' i slots := by
  induction slots with
  | nil => exact fun i _ _ => rfl
  | cons s slots ih =>
    intro i h h'
    rw [nextEntry, nextEntry, if_neg (by omega), if_neg (by omega), ih (i + 1) (by omega) (by omega)]

lemma nextEntry_drop (slots : List Loc) {c : Nat} (hc : c ≤ slots.length) :
    nextEntry d c 0 slots = nextEntry d c c (slots.drop c) := by
  have hlen : (slots.take c).length = c := by rw [length_take, min_eq_left hc]
  have h := nextEntry_skip (d := d) (slots.take c) (slots.drop c) 0 (by rw [zero_add, hlen])
  rwa [take_append_drop, zero_add, hlen] at h

/-- At an entry the verdict decides whether it is live. -/
lemma liveIn_cons (s : Loc) (slots : List Loc) : liveIn d (s :: slots) =
    match listVerdict (entryAt d s) with
    | .stop => []
    | .skip => liveIn d slots
    | .hit => s :: liveIn d slots := by
  have hcases : (entryAt d s 0 = 0 ∧ listVerdict (entryAt d s) = .stop) ∨
      (entryAt d s 0 ≠ 0 ∧ ¬ (entryAt d s).Listed ∧ listVerdict (entryAt d s) = .skip) ∨
      (entryAt d s 0 ≠ 0 ∧ (entryAt d s).Listed ∧ listVerdict (entryAt d s) = .hit) := by
    rw [listVerdict, DirEntry.Listed]
    split
    · simp_all
    split
    · simp_all
    split
    · simp_all
    · split
      · simp_all
      · simp_all
  rcases hcases with ⟨h0, hv⟩ | ⟨h0, hl, hv⟩ | ⟨h0, hl, hv⟩
  · rw [hv, liveIn, takeWhile_cons_of_neg (by simpa using h0)]
    rfl
  · rw [hv, liveIn, takeWhile_cons_of_pos (by simpa using h0), filter_cons_of_neg (by simpa using hl)]
    rfl
  · rw [hv, liveIn, takeWhile_cons_of_pos (by simpa using h0), filter_cons_of_pos (by simpa using hl)]
    rfl

/-- A reader that walks the slots from `b` on lists the live ones. -/
lemma lists_slots {slots : List Loc} {next : Nat → Nat × Option Dirent} {b : Nat}
    (hnext : ∀ c, b ≤ c → next c = nextEntry d c 0 slots) :
    ∀ rest c, b ≤ c → c ≤ slots.length → slots.drop c = rest → Lists next (direntsIn d rest) c := by
  intro rest
  induction rest with
  | nil =>
    intro c hb hc hdrop
    obtain rfl : c = slots.length := le_antisymm hc (drop_eq_nil_iff.mp hdrop)
    have hend : next slots.length = (slots.length, none) := by
      rw [hnext _ hb, nextEntry_drop slots hc, hdrop]
      rfl
    exact ⟨_, hend, hend⟩
  | cons s rest ih =>
    intro c hb hc hdrop
    have hlt : c < slots.length := by
      by_contra hge
      rw [drop_eq_nil_of_le (by omega)] at hdrop
      cases hdrop
    have hdrop' : slots.drop (c + 1) = rest := by
      rw [← drop_drop, hdrop]
      rfl
    have hrest := ih (c + 1) (by omega) hlt hdrop'
    have hat : next c = nextEntry d c c (s :: rest) := by
      rw [hnext c hb, nextEntry_drop slots hc, hdrop]
    rw [nextEntry, if_neg (lt_irrefl c)] at hat
    rw [direntsIn, liveIn_cons]
    cases hverdict : listVerdict (entryAt d s) with
    | stop =>
      rw [hverdict] at hat
      exact ⟨c, hat, hat⟩
    | skip =>
      rw [hverdict] at hat
      refine hrest.congr ?_
      rw [hat, hnext (c + 1) (by omega), nextEntry_drop slots hlt, hdrop',
        nextEntry_start rest (c + 1) (Nat.le_succ c) le_rfl]
    | hit =>
      rw [hverdict] at hat
      exact ⟨c + 1, hat, hrest⟩

/-- A directory that can be read: on the volume it has a chain. -/
def DirNode.Readable (v : Vol) (d : Disk) : DirNode → Prop
  | .builtin _ => True
  | .fat32 first => ∃ l, ChainAt v d v.entries first l
  | .other => False

section
variable (hv : v.Shaped) (hl : ChainAt v d v.entries first l)
include hv hl

/-- What the reader of the volume gives to `getdents64`. -/
lemma exec_fat32Readdir (c : Nat) : (fat32Readdir v first c 1).exec d =
      (match ((fat32DirIterate v first c).exec d).1 with
        | (slot, none) => (slot, [], true)
        | (slot, some e) => (slot, [e.vfs], false), d) := by
  have hd : ((fat32DirIterate v first c).exec d).2 = d := by rw [exec_fat32DirIterate hv hl]
  rw [fat32Readdir, BlockProg.exec_bind, hd]
  generalize ((fat32DirIterate v first c).exec d).1 = r
  obtain ⟨slot, e⟩ := r
  cases e with
  | none => rfl
  | some e => rfl

/-- A round on a directory of the volume. -/
lemma next_fat32 (c : Nat) : (DirNode.fat32 first).next v d c =
      ((dirNext v d first c).1, (dirNext v d first c).2.map fun e => e.vfs.shown) := by
  rw [DirNode.next, vfsReaddir, BlockProg.exec_bind, exec_fat32Readdir hv hl, dirNext]
  generalize ((fat32DirIterate v first c).exec d).1 = r
  obtain ⟨slot, e⟩ := r
  cases e with
  | none => rfl
  | some e => rfl

/-- A directory of the volume: the root begins with two entries of its own and goes on at slot 2. -/
lemma lists_dirIterate : Lists (dirNext v d first)
      (if first = v.root then
        direntSynth [46] first :: direntSynth [46, 46] first :: direntsIn d ((dirSlots v l).drop 2)
      else direntsIn d (dirSlots v l)) 0 := by
  have hnext : ∀ c, (first = v.root → 2 ≤ c) →
      dirNext v d first c = nextEntry d c 0 (dirSlots v l) := by
    intro c hc
    rw [dirNext, exec_fat32DirIterate hv hl, if_neg, if_neg]
    · rintro ⟨hroot, rfl⟩
      exact absurd (hc hroot) (by decide)
    · rintro ⟨hroot, rfl⟩
      exact absurd (hc hroot) (by decide)
  split_ifs with hroot
  · have hlen : 2 ≤ (dirSlots v l).length := by
      obtain ⟨k, hk⟩ : ∃ k, v.spc = k + 1 := ⟨v.spc - 1, by have := hv.spc; omega⟩
      rw [hl.head, dirSlots, flatMap_cons, hk, range_succ_eq_map, flatMap_cons,
        length_append, length_append, sectorSlots, length_map, length_range]
      omega
    refine ⟨1, ?_, 2, ?_, ?_⟩
    · rw [dirNext, exec_fat32DirIterate hv hl, if_pos ⟨hroot, rfl⟩]
    · rw [dirNext, exec_fat32DirIterate hv hl, if_neg (by simp), if_pos ⟨hroot, rfl⟩]
    · exact lists_slots (fun c hc => hnext c fun _ => hc) _ 2 le_rfl hlen rfl
  · exact lists_slots (b := 0) (fun c _ => hnext c fun h => absurd h hroot) _ 0 (le_refl _)
      (Nat.zero_le _) rfl

lemma lists_fat32 : Lists ((DirNode.fat32 first).next v d)
      (if first = v.root then
        (direntSynth [46] first).vfs.shown :: (direntSynth [46, 46] first).vfs.shown ::
          (liveIn d ((dirSlots v l).drop 2)).map (shownAt d)
      else (liveIn d (dirSlots v l)).map (shownAt d)) 0 := by
  have hmap := (lists_dirIterate hv hl).map fun e => e.vfs.shown
  rw [← funext (next_fat32 hv hl)] at hmap
  convert hmap using 1
  split_ifs with hroot
  · rw [map_cons, map_cons, direntsIn, map_map]
    rfl
  · rw [direntsIn, map_map]
    rfl

end

/-- **Iterating a directory.** From cookie 0 on, `fat32_dir_iterate` delivers `.` and `..` in the root
and then the live entries in order, each once and from every cookie on the rest, exactly if none is
lost in the first two slots of the root. -/
theorem dirIterate_lists_iff (hv : v.Shaped) (hl : ChainAt v d v.entries first l) :
    Lists (dirNext v d first)
        ((if first = v.root then [direntSynth [46] first, direntSynth [46, 46] first] else []) ++
          direntsIn d (dirSlots v l)) 0 ↔
      (first = v.root → direntsIn d ((dirSlots v l).drop 2) = direntsIn d (dirSlots v l)) := by
  have hlists := lists_dirIterate hv hl
  constructor
  · intro h hroot
    have heq := hlists.unique h
    rw [if_pos hroot, if_pos hroot] at heq
    exact (cons.inj (cons.inj heq).2).2
  · intro h
    split_ifs at hlists ⊢ with hroot
    · rw [h hroot] at hlists
      exact hlists
    · exact hlists

/-- The reader of built-in directories, one child at a time. -/
lemma builtinReaddir_one (children : List Child) (c : Nat) : vfsBuiltinReaddir children c 1 =
      match children.drop c with
      | [] => (children.length, [], true)
      | [x] => (c + 1, [x.dirent], true)
      | x :: _ :: _ => (c + 1, [x.dirent], false) := by
  -- what was handed out is passed over, one child is copied, and the loop stops at the next one
  have hloop : ∀ (cs : List Child) (seen : Nat), builtinLoop c 1 cs seen 0 =
      match cs.drop (c - seen) with
      | [] => (seen + cs.length, [], true)
      | [x] => (max c seen + 1, [x.dirent], true)
      | x :: _ :: _ => (max c seen + 1, [x.dirent], false) := by
    intro cs
    induction cs with
    | nil =>
      intro seen
      rw [drop_nil]
      rfl
    | cons x cs ih =>
      intro seen
      rw [builtinLoop]
      split
      · rename_i hlt
        obtain ⟨k, hk⟩ : ∃ k, c - seen = k + 1 := ⟨c - seen - 1, by omega⟩
        have hk' : c - (seen + 1) = k := by omega
        have hmax : max c (seen + 1) = max c seen := by omega
        rw [ih (seen + 1), hk', hk, drop_succ_cons, hmax, length_cons, add_right_comm, ← add_assoc]
      have h0 : c - seen = 0 := by omega
      have hmax : max c seen = seen := by omega
      rw [if_neg (by decide), h0, hmax, drop_zero]
      cases cs with
      | nil => rfl
      | cons y ys =>
        rw [builtinLoop, if_neg (by omega), if_pos rfl]
  rw [vfsBuiltinReaddir, hloop]
  simp only [Nat.sub_zero, zero_add, Nat.max_zero]

/-- A built-in directory: all children but the last. -/
lemma lists_builtin (children : List Child) : Lists ((DirNode.builtin children).next v d)
      (children.dropLast.map fun x => x.dirent.shown) 0 := by
  have hnext : ∀ c, (DirNode.builtin children).next v d c =
      match children.drop c with
      | [] => (children.length, none)
      | [_] => (c + 1, none)
      | x :: _ :: _ => (c + 1, some x.dirent.shown) := by
    intro c
    rw [DirNode.next, vfsReaddir, BlockProg.exec, builtinReaddir_one]
    cases children.drop c with
    | nil => rfl
    | cons x cs =>
      cases cs with
      | nil => rfl
      | cons y ys => rfl
  have hend : (DirNode.builtin children).next v d children.length = (children.length, none) := by
    rw [hnext, drop_length]
  have hlists : ∀ cs c, children.drop c = cs →
      Lists ((DirNode.builtin children).next v d) (cs.dropLast.map fun x => x.dirent.shown) c := by
    intro cs
    induction cs with
    | nil =>
      intro c hdrop
      exact ⟨_, by rw [hnext, hdrop], hend⟩
    | cons x cs ih =>
      intro c hdrop
      have hdrop' : children.drop (c + 1) = cs := by
        rw [← drop_drop, hdrop]
        rfl
      cases cs with
      | nil =>
        -- the last child comes with the end flag
        have hlen : children.length = c + 1 := by
          have hlen := congrArg length hdrop
          rw [length_drop, length_singleton] at hlen
          omega
        rw [hlen] at hend
        exact ⟨c + 1, by rw [hnext, hdrop], hend⟩
      | cons y ys => exact ⟨c + 1, by rw [hnext, hdrop], ih (c + 1) hdrop'⟩
  exact hlists children 0 rfl

variable (hv : v.Shaped) (hdir : dir.Readable v d)
include hv hdir

/-- Reading a directory leaves the disk, and always gives something. -/
lemma exec_vfsReaddir (c : Nat) : ∃ r, (vfsReaddir v dir c 1).exec d = (some r, d) := by
  cases dir with
  | builtin children => exact ⟨_, rfl⟩
  | other => exact hdir.elim
  | fat32 first =>
    obtain ⟨l, hl⟩ := hdir
    rw [vfsReaddir, BlockProg.exec_bind, exec_fat32Readdir hv hl]
    exact ⟨_, rfl⟩

/-- The loop of `getdents64` fills a buffer with records. -/
lemma exec_getdentsLoop (count n : Nat) : ∀ off used, (getdentsLoop v dir count n off used).exec d =
      (some ((fill (dir.next v d) reclen count n off used).1,
        (fill (dir.next v d) reclen count n off used).2.map fun x => x.1.record x.2), d) := by
  induction n with
  | zero => exact fun off used => rfl
  | succ n ih =>
    intro off used
    rw [getdentsLoop, fill]
    split
    · rfl
    obtain ⟨⟨off', es, eof⟩, hr⟩ := exec_vfsReaddir hv hdir off
    rw [BlockProg.exec_bind, DirNode.next, hr]
    cases es with
    | nil => rfl
    | cons e es =>
      cases eof with
      | true => rfl
      | false =>
        dsimp only
        split
        · rfl
        · rw [BlockProg.exec_bind, ih]
          rfl

/-- The results of a session. -/
lemma getdentsCalls_eq (counts : List Nat) : ∀ off, getdentsCalls v dir d counts off =
      (session (dir.next v d) reclen counts off).map fun ys => some (ys.map fun x => x.1.record x.2) := by
  induction counts with
  | nil => exact fun off => rfl
  | cons count counts ih =>
    intro off
    rw [getdentsCalls, session, getdents64, BlockProg.exec_bind, exec_getdentsLoop hv hdir]
    dsimp only [BlockProg.exec]
    rw [map_cons, ih]

end

/-! ## Complete listings -/

section
variable (v : Vol) (d : Disk)

/-- What a directory should list: its children, or its live entries, in the root behind `.` and `..`. -/
def DirNode.entries : DirNode → List Shown
  | .builtin children => children.map fun x => x.dirent.shown
  | .fat32 first =>
    (if first = v.root then [(direntSynth [46] first).vfs.shown, (direntSynth [46, 46] first).vfs.shown]
      else []) ++ (liveSlots v d (chainFrom v d v.entries first)).map (shownAt d)
  | .other => []

/-- No entry is lost: a built-in directory is empty; the root shows the same entries from slot 2 on as
from slot 0 on. -/
def DirNode.NothingHidden : DirNode → Prop
  | .builtin children => children = []
  | .fat32 first => first = v.root →
      (liveIn d ((dirSlots v (chainFrom v d v.entries first)).drop 2)).map (shownAt d) =
        (liveSlots v d (chainFrom v d v.entries first)).map (shownAt d)
  | .other => False

/-- The calls with these buffer sizes succeed; their records are the entries in order, each once, and a
call returns none only at the end or if the next record does not fit. -/
def ListsEntries (dir : DirNode) (counts : List Nat) : Prop :=
  ∃ results : List (List Record), getdentsCalls v dir d counts 0 = results.map some ∧
    Delivers reclen (dir.entries v d) counts (results.map (map Record.shown))

end

lemma shown_record (s : Shown) (off : Nat) : (s.record off).shown = s := by
  obtain ⟨name, ino, isDir⟩ := s
  cases isDir with
  | false => rfl
  | true => rfl

lemma reclen_pos (s : Shown) : 0 < reclen s := by
  rw [reclen]
  omega

section
variable {v : Vol} {d : Disk}

/-- What the rounds list. -/
lemma exists_lists (hv : v.Shaped) (hdir : dir.Readable v d) :
    ∃ xs, Lists (dir.next v d) xs 0 ∧ (xs = dir.entries v d ↔ dir.NothingHidden v d) := by
  cases dir with
  | other => exact hdir.elim
  | builtin children =>
    refine ⟨_, lists_builtin children, fun h => ?_, ?_⟩
    · have hlen := congrArg length h
      simp only [DirNode.entries, length_map, length_dropLast] at hlen
      exact length_eq_zero_iff.mp (by omega)
    · rintro rfl
      rfl
  | fat32 first =>
    obtain ⟨l, hl⟩ := hdir
    refine ⟨_, lists_fat32 hv hl, ?_⟩
    have hchain := chainFrom_eq hv le_rfl hl
    rw [DirNode.entries, DirNode.NothingHidden, hchain]
    split_ifs with hroot
    · rw [cons_append, cons_append, nil_append, cons_inj_right, cons_inj_right]
      exact ⟨fun h _ => h, fun h => h hroot⟩
    · exact ⟨fun _ h => absurd h hroot, fun _ => rfl⟩

/-- **Reading a directory.** Every sequence of calls lists the entries of a directory exactly if none
is hidden. -/
theorem getdents_lists_iff (hv : v.Shaped) {dir : DirNode} (hdir : dir.Readable v d) :
    (∀ counts, ListsEntries v d dir counts) ↔ dir.NothingHidden v d := by
  obtain ⟨xs, hlists, hiff⟩ := exists_lists hv hdir
  rw [← hiff, ← delivers_iff reclen_pos hlists]
  refine forall_congr' fun counts => ?_
  -- the records show the items of the session
  have hshown : ∀ results : List (List Record),
      getdentsCalls v dir d counts 0 = results.map some →
      results.map (map Record.shown) =
        (session (dir.next v d) reclen counts 0).map (map Prod.fst) := by
    intro results hres
    rw [getdentsCalls_eq hv hdir] at hres
    have hrecords : results =
        (session (dir.next v d) reclen counts 0).map (map fun x => x.1.record x.2) := by
      refine map_injective_iff.mpr (Option.some_injective _) ?_
      rw [← hres, map_map]
      rfl
    rw [hrecords, map_map]
    refine map_congr_left fun ys _ => ?_
    rw [Function.comp, map_map]
    exact map_congr_left fun x _ => shown_record x.1 x.2
  constructor
  · rintro ⟨results, hres, hdel⟩
    rwa [hshown results hres] at hdel
  intro hdel
  refine ⟨(session (dir.next v d) reclen counts 0).map (map fun x => x.1.record x.2), ?_, ?_⟩
  · rw [getdentsCalls_eq hv hdir, map_map]
    rfl
  · rw [hshown]
    · exact hdel
    · rw [getdentsCalls_eq hv hdir, map_map]
      rfl

end

/-- A directory in cluster 3 with the files `A` and `B`. -/
def subDirectory : Disk := fun n =>
  if n = 1 then sectorOf (tableBytes 2 fatMark ++ tableBytes 3 fatMark)
  else if n = 3 then sectorOf (entryBytesAt 0 [65] 4 ++ entryBytesAt 1 [66] 5)
  else sectorOf []

theorem getdents_lists_subDirectory : ListsEntries smallVol subDirectory (.fat32 3) [24, 1000, 1000] :=
  have hdir : (DirNode.fat32 3).Readable smallVol subDirectory :=
    ⟨[3], chainAt_of_check (by decide) (by decide +kernel)⟩
  (getdents_lists_iff smallVol_shaped hdir).mpr (fun h => absurd h (by decide)) _

theorem dirIterate_lists_subDirectory :
    Lists (dirNext smallVol subDirectory 3) ([] ++ direntsIn subDirectory (dirSlots smallVol [3])) 0 :=
  (dirIterate_lists_iff smallVol_shaped (chainAt_of_check (by decide) (by decide +kernel))).mpr
    fun h => absurd h (by decide)

/-- The file in the first slot of the volume root is not among the entries. -/
theorem root_entry_skipped : ChainAt smallVol twoClusters smallVol.entries smallVol.root [2] ∧
    ¬ Lists (dirNext smallVol twoClusters smallVol.root)
      ([direntSynth [46] smallVol.root, direntSynth [46, 46] smallVol.root] ++
        direntsIn twoClusters (dirSlots smallVol [2])) 0 := by
  refine ⟨twoClusters_flat.chain, fun h => ?_⟩
  have hlen := congrArg length ((lists_dirIterate smallVol_shaped twoClusters_flat.chain).unique h)
  revert hlen
  decide +kernel

/-- The results of a session show what its records show. -/
lemma shown_of_calls {v : Vol} {d : Disk} {counts : List Nat} {results : List (List Record)}
    (h : getdentsCalls v dir d counts 0 = results.map some) :
    results.map (map Record.shown) =
      (getdentsCalls v dir d counts 0).map fun r => (r.getD []).map Record.shown := by
  rw [h, map_map]
  rfl

/-- The only child of a built-in directory is never returned; nor is the file in the first slot of the
volume root, where the second call reports the end. -/
theorem entries_stay_hidden :
    ¬ ListsEntries smallVol twoClusters (.builtin [⟨[98], .reg, 0, 1⟩]) [100] ∧
      ¬ ListsEntries smallVol twoClusters (.fat32 2) [1000, 1000] := by
  refine ⟨?_, ?_⟩
  · rintro ⟨results, hres, hdel⟩
    rw [shown_of_calls hres] at hdel
    exact absurd (hdel.2.1 rfl _ rfl) (by decide)
  rintro ⟨results, hres, hdel⟩
  have hshown : ((getdentsCalls smallVol (.fat32 2) twoClusters [1000, 1000] 0).map
      fun r => (r.getD []).map Record.shown) =
        [[⟨[46], 2 + 2 ^ 63, true⟩, ⟨[46, 46], 2 + 2 ^ 63, true⟩], []] := by
    decide +kernel
  have hentries : (DirNode.fat32 2).entries smallVol twoClusters =
      [⟨[46], 2 + 2 ^ 63, true⟩, ⟨[46, 46], 2 + 2 ^ 63, true⟩, ⟨[65], 3, false⟩] := by
    decide +kernel
  rw [shown_of_calls hres, hshown, hentries] at hdel
  exact absurd (hdel.2.2.2.1 rfl _ rfl) (by decide)

end FermiOs.Fat32
