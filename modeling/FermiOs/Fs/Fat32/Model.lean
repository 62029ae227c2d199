import FermiOs.Library.BlockProg

/-!
# The FAT32 driver

`fs/fat32/fat32.c` as programs over 512-byte sectors, each `blk_read` and `blk_write` one transfer.
Sector numbers, cluster numbers and offsets are 32-bit values. The walks along a cluster chain take
the number of table entries as a bound; a chain longer than that is a cycle, on which the code does not
return.
-/

namespace FermiOs.Fat32
open Library

/-- The bytes of a sector. -/
abbrev Sector := Nat → UInt8

abbrev Disk := Nat → Sector

abbrev Io := BlockProg Sector

/-- A 32-bit value. -/
def u32 (x : Nat) : Nat := x % 2 ^ 32

/-- Little-endian fields. -/
def le16 (b : Nat → UInt8) (off : Nat) : Nat := (b off).toNat + (b (off + 1)).toNat * 2 ^ 8

@[inherit_doc le16]
def le32 (b : Nat → UInt8) (off : Nat) : Nat := le16 b off + le16 b (off + 2) * 2 ^ 16

/-- A 32-bit value stored at an offset. -/
def setLe32 (b : Sector) (off value : Nat) : Sector := fun i =>
  if off ≤ i ∧ i < off + 4 then UInt8.ofNat (value / 256 ^ (i - off)) else b i

/-- `memcpy` of the first `n` bytes of a list to an offset. -/
def patch (b : Sector) (off : Nat) (data : List UInt8) (n : Nat) : Sector := fun i =>
  if off ≤ i ∧ i < off + n then data.getD (i - off) 0 else b i

/-- The static `vol`. -/
structure Vol where
  fatStart : Nat
  dataStart : Nat
  spc : Nat
  root : Nat

/-- `SECTOR * sectors_per_cluster`. -/
def Vol.bytesPerCluster (v : Vol) : Nat := v.spc * 512

/-- The table entries `fat_alloc_cluster` scans: all sectors between the first table and the data. -/
def Vol.entries (v : Vol) : Nat := (v.dataStart - v.fatStart) * 128

/-- `FAT32_EOC`. -/
def fatEoc : Nat := 0x0FFFFFF8

/-- `cluster_to_sector`. -/
def clusterToSector (v : Vol) (c : Nat) : Nat := u32 (v.dataStart + u32 (c + 2 ^ 32 - 2) * v.spc)

/-! ## The table -/

/-- Sector and offset of a table entry. -/
def fatSector (v : Vol) (c : Nat) : Nat := u32 (v.fatStart + u32 (c * 4) / 512)

@[inherit_doc fatSector]
def fatOffset (c : Nat) : Nat := u32 (c * 4) % 512

/-- `fat_next`: a sector that cannot be read counts as the end of the chain. -/
def fatNext (v : Vol) (c : Nat) : Io Nat :=
  .read (fatSector v c) fun
    | none => .ret fatEoc
    | some b => .ret (le32 b (fatOffset c) % 2 ^ 28)

/-- `fat_write`: the upper four bits of the entry stay. -/
def fatWrite (v : Vol) (c value : Nat) : Io Bool :=
  .read (fatSector v c) fun
    | none => .ret false
    | some b =>
      .write (fatSector v c) (setLe32 b (fatOffset c)
        (le32 b (fatOffset c) / 2 ^ 28 * 2 ^ 28 + value % 2 ^ 28)) .ret

/-- The loop of `fat_alloc_cluster` from entry `c` on. -/
def allocFrom (v : Vol) : Nat → Nat → Io Nat
  | 0, _ => .ret 0
  | n + 1, c =>
    if v.dataStart ≤ fatSector v c then .ret 0
    else .read (fatSector v c) fun
      | none => .ret 0
      | some b =>
        if le32 b (fatOffset c) % 2 ^ 28 = 0 then
          (fatWrite v c 0x0FFFFFFF).bind fun ok => .ret (if ok then c else 0)
        else allocFrom v n (c + 1)

/-- `fat_alloc_cluster`: the first free cluster, marked as the end of a chain, or 0. -/
def fatAllocCluster (v : Vol) : Io Nat := allocFrom v v.entries 2

/-- The loop of `fat_extend_chain`. -/
def extendLoop (v : Vol) : Nat → Nat → Nat → Io Nat
  | 0, cur, firstNew =>
    if firstNew = 0 then .ret 0 else (fatWrite v cur fatEoc).bind fun _ => .ret firstNew
  | n + 1, cur, firstNew =>
    (fatAllocCluster v).bind fun nc =>
      if nc = 0 then .ret firstNew
      else (fatWrite v cur nc).bind fun ok =>
        if ok then extendLoop v n nc (if firstNew = 0 then nc else firstNew) else .ret firstNew

/-- `fat_extend_chain`. -/
def fatExtendChain (v : Vol) (last count : Nat) : Io Nat := extendLoop v count last 0

/-- The loop of `fat_seek_cluster`, with the clusters still to go. -/
def seekLoop (v : Vol) (create : Bool) : Nat → Nat → Io (Option Nat)
  | 0, c => .ret (some c)
  | n + 1, c =>
    (fatNext v c).bind fun next =>
      if fatEoc ≤ next then
        if create then
          (fatExtendChain v c 1).bind fun grown =>
            if grown = 0 then .ret none else seekLoop v create n grown
        else .ret none
      else seekLoop v create n next

/-- `fat_seek_cluster`: the cluster of byte `offset` and the place in it. -/
def fatSeekCluster (v : Vol) (first offset : Nat) (create : Bool) : Io (Option (Nat × Nat)) :=
  (seekLoop v create (offset / v.bytesPerCluster) first).bind fun
    | none => .ret none
    | some c => .ret (some (c, offset % v.bytesPerCluster))

/-! ## File data -/

/-- The inner loop of `fat32_write_at`: fills one cluster and returns the bytes left. A whole sector is
written without reading it first. -/
def writeInner (v : Vol) (base : Nat) : Nat → Nat → List UInt8 → Io (Option (List UInt8))
  | 0, _, data => .ret (some data)
  | n + 1, inner, data =>
    if v.bytesPerCluster ≤ inner ∨ data = [] then .ret (some data)
    else
      let sector := u32 (base + inner / 512)
      let off := inner % 512
      let chunk := min (512 - off) data.length
      let next (ok : Bool) : Io (Option (List UInt8)) :=
        if ok then writeInner v base n (inner + chunk) (data.drop chunk) else .ret none
      if off ≠ 0 ∨ chunk ≠ 512 then
        .read sector fun
          | none => .ret none
          | some b => .write sector (patch b off data chunk) next
      else .write sector (patch (fun _ => 0) 0 data 512) next

/-- The outer loop of `fat32_write_at`. -/
def writeLoop (v : Vol) (first : Nat) : Nat → Nat → List UInt8 → Io (Option Nat)
  | _, offset, [] => .ret (some offset)
  | 0, _, _ :: _ => .ret none
  | n + 1, offset, x :: data =>
    (fatSeekCluster v first offset true).bind fun
      | none => .ret none
      | some (c, inner) =>
        (writeInner v (clusterToSector v c) (x :: data).length inner (x :: data)).bind fun
          | none => .ret none
          | some rest =>
            writeLoop v first n (u32 (offset + ((x :: data).length - rest.length))) rest

/-- `fat32_write_at`: the offset behind the last byte written. -/
def fat32WriteAt (v : Vol) (first offset : Nat) (data : List UInt8) : Io (Option Nat) :=
  if first = 0 then .ret none else writeLoop v first data.length offset data

/-- The sectors of one cluster for `fat32_read`: the bytes read. -/
def readCluster (base : Nat) : Nat → Nat → Nat → Io (Option (List UInt8))
  | 0, _, _ => .ret (some [])
  | n + 1, s, remaining =>
    if remaining = 0 then .ret (some [])
    else .read (u32 (base + s)) fun
      | none => .ret none
      | some b =>
        (readCluster base n (s + 1) (remaining - min remaining 512)).bind fun
          | none => .ret none
          | some rest => .ret (some ((List.range (min remaining 512)).map b ++ rest))

/-- The loop of `fat32_read` over the chain. -/
def readLoop (v : Vol) : Nat → Nat → Nat → Io (Option (List UInt8))
  | 0, _, _ => .ret (some [])
  | n + 1, c, remaining =>
    if remaining = 0 ∨ fatEoc ≤ c then .ret (some [])
    else (readCluster (clusterToSector v c) v.spc 0 remaining).bind fun
      | none => .ret none
      | some bytes =>
        (fatNext v c).bind fun next =>
          (readLoop v n next (remaining - bytes.length)).bind fun
            | none => .ret none
            | some rest => .ret (some (bytes ++ rest))

/-- `fat32_read` of the first `size` bytes. Each round delivers at least one byte. -/
def fat32Read (v : Vol) (first size : Nat) : Io (Option (List UInt8)) := readLoop v size first size

/-! ## Directories -/

/-- `struct dir_entry`, as its 32 bytes. -/
abbrev DirEntry := Nat → UInt8

section
variable (e : DirEntry)

/-- The fields the code reads. -/
def DirEntry.name : List UInt8 := (List.range 11).map e

@[inherit_doc DirEntry.name]
def DirEntry.attr : UInt8 := e 11

@[inherit_doc DirEntry.name]
def DirEntry.first : Nat := le16 e 20 * 2 ^ 16 + le16 e 26

@[inherit_doc DirEntry.name]
def DirEntry.size : Nat := le32 e 28

end

/-- Entry `i` of a sector. -/
def slotOf (b : Sector) (i : Nat) : DirEntry := fun k => b (32 * i + k)

/-- What a walk through a directory does at an entry. -/
inductive Verdict
  | skip
  | stop
  | hit

/-- `dir_lookup`: the end mark ends the search; deleted entries, parts of long names and volume labels
are passed over. -/
def lookupVerdict (target : List UInt8) (e : DirEntry) : Verdict :=
  if e 0 = 0 then .stop
  else if e 0 = 0xE5 then .skip
  else if e.attr = 0x0F then .skip
  else if e.attr &&& 0x08 ≠ 0 then .skip
  else if e.name = target then .hit
  else .skip

/-- `dir_add_entry`: the first entry that is unused or deleted. -/
def freeVerdict (e : DirEntry) : Verdict := if e 0 = 0 ∨ e 0 = 0xE5 then .hit else .skip

/-- `fat32_truncate_path`: neither the end mark nor a volume label is treated as such. -/
def sizeVerdict (target : List UInt8) (e : DirEntry) : Verdict :=
  if e 0 = 0 ∨ e 0 = 0xE5 ∨ e.attr = 0x0F then .skip
  else if e.name = target then .hit
  else .skip

/-- The outcome of a scan through the entries of a sector. -/
inductive Scan
  | more
  | stop
  | hit (i : Nat)

/-- The entries of a sector from `i` on. -/
def scanFrom (f : DirEntry → Verdict) (b : Sector) : Nat → Nat → Scan
  | 0, _ => .more
  | n + 1, i =>
    match f (slotOf b i) with
    | .skip => scanFrom f b n (i + 1)
    | .stop => .stop
    | .hit => .hit i

/-- The outcome of a walk: the end of the directory, a sector that cannot be read, or an entry with the
sector it is in. -/
inductive Walk
  | ended
  | failed
  | hit (sector i : Nat) (b : Sector)

/-- The sectors of one cluster; `none` when all were passed over. -/
def walkSectors (f : DirEntry → Verdict) (base : Nat) : Nat → Nat → Io (Option Walk)
  | 0, _ => .ret none
  | n + 1, s =>
    .read (u32 (base + s)) fun
      | none => .ret (some .failed)
      | some b =>
        match scanFrom f b 16 0 with
        | .more => walkSectors f base n (s + 1)
        | .stop => .ret (some .ended)
        | .hit i => .ret (some (.hit (u32 (base + s)) i b))

/-- The walk along a directory that `dir_lookup`, `dir_add_entry` and `fat32_truncate_path` share. -/
def walkDir (v : Vol) (f : DirEntry → Verdict) : Nat → Nat → Io Walk
  | 0, _ => .ret .failed
  | n + 1, c =>
    if fatEoc ≤ c then .ret .ended
    else (walkSectors f (clusterToSector v c) v.spc 0).bind fun
      | some r => .ret r
      | none => (fatNext v c).bind fun next => walkDir v f n next

/-- What a lookup reports. -/
structure Found where
  first : Nat
  size : Nat
  attr : UInt8

section
variable (v : Vol) (dir : Nat)

/-- `dir_lookup`. -/
def dirLookup (target : List UInt8) : Io (Option Found) :=
  (walkDir v (lookupVerdict target) (v.entries + 1) dir).bind fun
    | .hit _ i b =>
      .ret (some ⟨(slotOf b i).first, (slotOf b i).size, (slotOf b i).attr⟩)
    | _ => .ret none

/-- `dir_add_entry`. -/
def dirAddEntry (e : DirEntry) : Io Bool :=
  (walkDir v freeVerdict (v.entries + 1) dir).bind fun
    | .hit n i b => .write n (patch b (32 * i) ((List.range 32).map e) 32) .ret
    | _ => .ret false

/-- The second half of `fat32_truncate_path`: the size field of the entry is rewritten. -/
def dirSetSize (target : List UInt8) (size : Nat) : Io Bool :=
  (walkDir v (sizeVerdict target) (v.entries + 1) dir).bind fun
    | .hit n i b => .write n (setLe32 b (32 * i + 28) size) .ret
    | _ => .ret false

end

/-- A lower-case letter becomes upper-case. -/
def upper (c : UInt8) : UInt8 := if 97 ≤ c ∧ c ≤ 122 then c - 32 else c

/-- Bytes padded with spaces. -/
def padded (n : Nat) (bytes : List UInt8) : List UInt8 :=
  (bytes.take n).map upper ++ List.replicate (n - (bytes.take n).length) 32

/-- `to_83`: eight bytes up to the first dot, three from behind it. -/
def to83 (name : List UInt8) : List UInt8 :=
  padded 8 (name.takeWhile (· ≠ 46)) ++ padded 3 ((name.dropWhile (· ≠ 46)).drop 1)

/-- The components of a path. -/
def components (path : List UInt8) : List (List UInt8) :=
  (path.splitOn 47).filter (· ≠ [])

/-- A path without leading slashes, cut at the last slash: what stands before it, if there is one, and
the bytes behind it. -/
def splitLast (path : List UInt8) : Option (List UInt8) × List UInt8 :=
  let p := path.dropWhile (· = 47)
  let name := (p.reverse.takeWhile (· ≠ 47)).reverse
  (if 47 ∈ p then some (p.take (p.length - name.length - 1)) else none, name)

/-- The walk of `fat32_create` through directories; a component is cut to twelve bytes. -/
def findDir (v : Vol) : Nat → List (List UInt8) → Io (Option Nat)
  | dir, [] => .ret (some dir)
  | dir, name :: names =>
    (dirLookup v dir (to83 (name.take 12))).bind fun
      | none => .ret none
      | some r => if r.attr &&& 0x10 = 0 then .ret none else findDir v r.first names

/-- `fat32_find`: every component but the last must be a directory. -/
def fat32Find (v : Vol) : Nat → List (List UInt8) → Io (Option (Nat × Nat))
  | _, [] => .ret none
  | dir, [name] =>
    (dirLookup v dir (to83 (name.take 12))).bind fun
      | none => .ret none
      | some r => .ret (some (r.first, r.size))
  | dir, name :: name' :: names =>
    (dirLookup v dir (to83 (name.take 12))).bind fun
      | none => .ret none
      | some r => if r.attr &&& 0x10 = 0 then .ret none else fat32Find v r.first (name' :: names)

/-- The entry `fat32_create` writes for an empty file. -/
def newEntry (name : List UInt8) (first : Nat) : DirEntry := fun k =>
  if k < 11 then (to83 name).getD k 0
  else if k = 11 then 0x20
  else if k = 20 then UInt8.ofNat (first / 2 ^ 16)
  else if k = 21 then UInt8.ofNat (first / 2 ^ 24)
  else if k = 26 then UInt8.ofNat first
  else if k = 27 then UInt8.ofNat (first / 2 ^ 8)
  else 0

/-- `fat32_create` without data, as its one caller uses it: a cluster is taken before the entry is
added. -/
def fat32Create (v : Vol) (path : List UInt8) : Io Bool :=
  (findDir v v.root (components ((splitLast path).1.getD []))).bind fun
    | none => .ret false
    | some dir =>
      (fatAllocCluster v).bind fun c =>
        if c = 0 then .ret false
        else dirAddEntry v dir (newEntry ((splitLast path).2.take 12) c)

/-- How `fat32_truncate_path` ends: a path with a directory part makes `fat32_find` store the size
through a null pointer. -/
inductive Outcome
  | ok
  | err
  | fault
  deriving DecidableEq

/-- `fat32_truncate_path`. -/
def fat32TruncatePath (v : Vol) (path : List UInt8) (size : Nat) : Io Outcome :=
  match splitLast path with
  | (none, name) =>
    if 13 ≤ name.length then .ret .err
    else (dirSetSize v v.root (to83 name) size).bind fun ok => .ret (if ok then .ok else .err)
  | (some dir, name) =>
    if 256 ≤ dir.length ∨ 13 ≤ name.length then .ret .err
    else (fat32Find v v.root (components dir)).bind fun
      | none => .ret .err
      | some _ => .ret .fault

end FermiOs.Fat32
