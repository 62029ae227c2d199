import FermiOs.Fs.Fat32.Directory

/-!
# Files of the mounted volume

`fs/fat32/fat32_vfs.c` and the parts of `fs/vfs/vfs.c` above it: the vnode tree with its cache of
directory entries, path resolution, `open`, `read`, `write`, `lseek` and truncation. A vnode is its
index in the pool, in the order of creation; children are searched from the newest on. The answers of
`kmalloc` are part of the state.
-/

namespace FermiOs.Fat32
open Library

inductive VnodeType
  | reg
  | dir
  | chr
  | blk
  deriving DecidableEq

/-- `fat32_priv_t`. -/
structure Priv where
  first : Nat
  size : Nat
  deriving DecidableEq

/-- `vnode_t`; a vnode with private data is one of this file system. -/
structure Vnode where
  name : List UInt8
  type : VnodeType
  parent : Option Nat
  priv : Option Priv
  size : Nat

/-- `file_t`. -/
structure File where
  vnode : Nat
  offset : Nat
  flags : Nat
  deriving DecidableEq

/-- The disk behind a device that gives the answers `device`, `clock` of them so far; the vnode pool,
the open files, and the answers `kmalloc` is going to give. -/
structure Fs where
  disk : Disk
  device : Nat → Transfer → Answer
  clock : Nat
  nodes : List Vnode
  files : List File
  grants : List Bool

/-- The answer of `kmalloc`. -/
def Fs.kmalloc (fs : Fs) : Bool × Fs := (fs.grants.headD true, { fs with grants := fs.grants.tail })

/-- A program is run on the device. -/
def Fs.io {α : Type} (fs : Fs) (p : Io α) : α × Fs :=
  match p.run fs.device fs.disk fs.clock with
  | (a, d, i) => (a, { fs with disk := d, clock := i })

/-- `MAX_VNODES`. -/
def maxVnodes : Nat := 128

/-- `fat32_mount_path`: `/mnt/fat32`. -/
def mountPath : List UInt8 := [47, 109, 110, 116, 47, 102, 97, 116, 51, 50]

/-! ## Paths -/

/-- The names on the way to a vnode, at most `n` of them. -/
def pathNames (nodes : List Vnode) : Nat → Nat → Option (List (List UInt8))
  | n, i =>
    match nodes[i]? with
    | none => none
    | some node =>
      match node.parent, n with
      | none, _ => some []
      | some _, 0 => none
      | some p, n + 1 => (pathNames nodes n p).map (· ++ [node.name])

/-- `fat32_build_vnode_path`: sixteen names and 255 bytes at most. -/
def fat32BuildVnodePath (nodes : List Vnode) (i : Nat) : Option (List UInt8) :=
  match pathNames nodes 16 i with
  | none => none
  | some names =>
    let path := names.flatMap (47 :: ·)
    if path.length ≤ 255 then some path else none

/-- `fat32_rel_path`: the mount path is compared as a string. -/
def fat32RelPath (path : List UInt8) : Option (List UInt8) :=
  if mountPath.isPrefixOf path then
    let rest := (path.drop mountPath.length).dropWhile (· = 47)
    if rest.length ≤ 127 then some rest else none
  else none

/-- The path under which a vnode's entry is rewritten. -/
def entryPath (nodes : List Vnode) (i : Nat) : Option (List UInt8) :=
  (fat32BuildVnodePath nodes i).bind fat32RelPath

/-! ## Lookup -/

/-- The loop of `find_child`: the newest child of that name. -/
def cachedChild (nodes : List Vnode) (dir : Nat) (name : List UInt8) : Option Nat :=
  (List.range nodes.length).reverse.find? fun i =>
    match nodes[i]? with
    | some node => node.parent = some dir ∧ node.name = name
    | none => False

/-- `fat32_lookup` in the directory with this private data. -/
def fat32Lookup (v : Vol) (fs : Fs) (dir : Nat) (pd : Priv) (name : List UInt8) : Option Nat × Fs :=
  if 12 < name.length then (none, fs)
  else
    match fs.io (dirLookup v pd.first (to83 name)) with
    | (none, fs) => (none, fs)
    | (some r, fs) =>
      match fs.kmalloc with
      | (false, fs) => (none, fs)
      | (true, fs) =>
        if maxVnodes ≤ fs.nodes.length then (none, fs)
        else
          let child : Vnode :=
            { name := name, type := if r.attr &&& 0x10 = 0 then .reg else .dir, parent := some dir,
              priv := some ⟨r.first, r.size⟩, size := r.size }
          (some fs.nodes.length, { fs with nodes := fs.nodes ++ [child] })

/-- `find_child`. -/
def findChild (v : Vol) (fs : Fs) (dir : Nat) (node : Vnode) (name : List UInt8) : Option Nat × Fs :=
  match cachedChild fs.nodes dir name with
  | some i => (some i, fs)
  | none =>
    match node.priv with
    | none => (none, fs)
    | some pd => fat32Lookup v fs dir pd name

/-- The loop of `vfs_resolve_at`. -/
def resolveFrom (v : Vol) : Fs → Nat → List (List UInt8) → Option Nat × Fs
  | fs, cur, [] => (some cur, fs)
  | fs, cur, name :: names =>
    match fs.nodes[cur]? with
    | none => (none, fs)
    | some node =>
      if node.type ≠ .dir then (none, fs)
      else if name = [46] then resolveFrom v fs cur names
      else if name = [46, 46] then resolveFrom v fs (node.parent.getD cur) names
      else
        match findChild v fs cur node name with
        | (none, fs) => (none, fs)
        | (some i, fs) => resolveFrom v fs i names

/-- `vfs_resolve`. -/
def vfsResolve (v : Vol) (fs : Fs) (path : List UInt8) : Option Nat × Fs :=
  resolveFrom v fs 0 (components path)

/-! ## Calls on files -/

/-- How a call ends: with a result, with -1, or in a fault of the kernel. -/
inductive Ret
  | ok (n : Nat)
  | err
  | fault
  deriving DecidableEq

/-- The transfers of `fat32_file_write` with a nonempty buffer: the data, then the size in the entry.
Offset and count are cut to 32 bits. -/
def fat32FileWrite (v : Vol) (rel : Option (List UInt8)) (first offset : Nat) (data : List UInt8) :
    Io Ret :=
  (fat32WriteAt v first (u32 offset) (data.take (u32 data.length))).bind fun
    | none => .ret .err
    | some newSize =>
      match rel with
      | none => .ret .err
      | some rel =>
        (fat32TruncatePath v rel newSize).bind fun
          | .ok => .ret (.ok newSize)
          | .err => .ret .err
          | .fault => .ret .fault

/-- The size of a vnode is set in both places. -/
def setSize (nodes : List Vnode) (i size : Nat) : List Vnode :=
  nodes.modify i fun n =>
    { n with size := size, priv := n.priv.map fun pd => { pd with size := size } }

/-- `fd_write` on open file `f`. -/
def fdWrite (v : Vol) (fs : Fs) (f : Nat) (data : List UInt8) : Ret × Fs :=
  match fs.files[f]? with
  | none => (.err, fs)
  | some file =>
    match fs.nodes[file.vnode]? with
    | none => (.err, fs)
    | some node =>
      match node.type, node.priv with
      | .reg, some pd =>
        if file.flags = 0 then (.err, fs)
        else if data = [] then (.ok 0, fs)
        else
          match fs.io (fat32FileWrite v (entryPath fs.nodes file.vnode) pd.first file.offset
              data) with
          | (.ok newSize, fs) =>
            (.ok data.length,
              { fs with
                nodes := setSize fs.nodes file.vnode newSize
                files := fs.files.set f { file with offset := file.offset + data.length } })
          | (r, fs) => (r, fs)
      | _, _ => (.err, fs)

/-- The bytes of `fat32_file_read`: the file is read from its start into a scratch buffer. -/
def fat32FileRead (v : Vol) (pd : Priv) (offset count : Nat) : Io (Option (List UInt8)) :=
  let toRead := min (pd.size - offset) count
  (fat32Read v pd.first (offset + toRead)).bind fun
    | none => .ret none
    | some bytes => .ret (if 2 ^ 31 ≤ bytes.length then none else some (bytes.drop offset))

/-- `fd_read` on open file `f`; `none` is -1. -/
def fdRead (v : Vol) (fs : Fs) (f count : Nat) : Option (List UInt8) × Fs :=
  match fs.files[f]? with
  | none => (none, fs)
  | some file =>
    match fs.nodes[file.vnode]? with
    | none => (none, fs)
    | some node =>
      match node.type, node.priv with
      | .reg, some pd =>
        if file.flags = 1 then (none, fs)
        else if pd.size ≤ file.offset then (some [], fs)
        else
          match fs.kmalloc with
          | (false, fs) => (none, fs)
          | (true, fs) =>
            match fs.io (fat32FileRead v pd file.offset count) with
            | (none, fs) => (none, fs)
            | (some bytes, fs) =>
              (some bytes,
                { fs with
                  files := fs.files.set f
                    { file with offset := file.offset + bytes.length } })
      | _, _ => (none, fs)

/-- `whence` of `lseek`. -/
inductive Whence
  | set
  | cur
  | end

/-- `fd_seek` on open file `f`. -/
def fdSeek (fs : Fs) (f : Nat) (offset : Int) (whence : Whence) : Ret × Fs :=
  match fs.files[f]? with
  | none => (.err, fs)
  | some file =>
    match fs.nodes[file.vnode]? with
    | none => (.err, fs)
    | some node =>
      if node.type = .chr then (.err, fs)
      else
        let target : Option Int :=
          match whence with
          | .set => some offset
          | .cur => some ((file.offset + offset).bmod (2 ^ 64))
          | .end => if node.type = .reg then some ((node.size + offset).bmod (2 ^ 64)) else none
        match target with
        | none => (.err, fs)
        | some new =>
          if new < 0 then (.err, fs)
          else (.ok new.toNat, { fs with files := fs.files.set f { file with offset := new.toNat } })

/-- `fat32_file_truncate`: only to a size that is not larger. -/
def fat32FileTruncate (v : Vol) (fs : Fs) (i size : Nat) : Ret × Fs :=
  match fs.nodes[i]? with
  | none => (.err, fs)
  | some node =>
    match node.priv with
    | none => (.err, fs)
    | some pd =>
      if pd.size < size then (.err, fs)
      else
        match entryPath fs.nodes i with
        | none => (.err, fs)
        | some rel =>
          match fs.io (fat32TruncatePath v rel (u32 size)) with
          | (.ok, fs) => (.ok 0, { fs with nodes := setSize fs.nodes i size })
          | (.err, fs) => (.err, fs)
          | (.fault, fs) => (.fault, fs)

/-! ## Opening -/

section
variable (flags : Nat)

/-- The bits of the flag word. -/
def oCreat : Bool := flags.testBit 6

@[inherit_doc oCreat]
def oExcl : Bool := flags.testBit 7

@[inherit_doc oCreat]
def oTrunc : Bool := flags.testBit 9

@[inherit_doc oCreat]
def oAppend : Bool := flags.testBit 10

end

/-- `fat32_create_file`. -/
def fat32CreateFile (v : Vol) (fs : Fs) (path : List UInt8) : Bool × Fs :=
  match fat32RelPath path with
  | none => (false, fs)
  | some rel => fs.io (fat32Create v rel)

/-- The end of `fd_open_ex`: a slot of the table, then the description. -/
def openFile (fs : Fs) (free : Bool) (i flags : Nat) : Ret × Fs :=
  if free then
    match fs.kmalloc with
    | (false, fs) => (.err, fs)
    | (true, fs) =>
      let size := (fs.nodes[i]?.map Vnode.size).getD 0
      (.ok fs.files.length,
        { fs with
          files := fs.files ++ [⟨i, if oAppend flags then size else 0, flags % 4⟩] })
  else (.err, fs)

/-- `fd_open_ex` behind the resolution: `O_TRUNC`, which only files of this file system support. -/
def openNode (v : Vol) (fs : Fs) (free : Bool) (i flags : Nat) : Ret × Fs :=
  match fs.nodes[i]? with
  | none => (.err, fs)
  | some node =>
    if oTrunc flags = true ∧ node.type = .reg ∧ node.priv.isSome = true then
      match fat32FileTruncate v fs i 0 with
      | (.ok _, fs) => openFile fs free i flags
      | (r, fs) => (r, fs)
    else openFile fs free i flags

/-- `fd_open_ex`; `free` says whether the descriptor table has an empty slot. A successful call ends
with the number of the new description. -/
def fdOpenEx (v : Vol) (fs : Fs) (free : Bool) (path : List UInt8) (flags : Nat) : Ret × Fs :=
  if flags % 4 = 3 then (.err, fs)
  else if oExcl flags = true ∧ oCreat flags = false then (.err, fs)
  else
    match vfsResolve v fs path with
    | (some i, fs) =>
      if oCreat flags = true ∧ oExcl flags = true then (.err, fs) else openNode v fs free i flags
    | (none, fs) =>
      if oCreat flags = false then (.err, fs)
      else
        match fat32CreateFile v fs path with
        | (false, fs) => (.err, fs)
        | (true, fs) =>
          match vfsResolve v fs path with
          | (none, fs) => (.err, fs)
          | (some i, fs) => openNode v fs free i flags

/-! ## Rules

What holds of the state a call ends in follows from what holds behind its steps. -/

section
variable {v : Vol} {fs : Fs} {free : Bool} {path : List UInt8} {flags i size : Nat} {Q : Fs → Prop}

lemma openFile_rule (h : ∀ grants files, (∀ b ∈ grants, b ∈ fs.grants) →
    Q { fs with grants := grants, files := files }) : Q (openFile fs free i flags).2 := by
  rw [openFile]
  split
  · rw [Fs.kmalloc]
    cases fs.grants.headD true with
    | false => exact h _ _ fun b hb => List.mem_of_mem_tail hb
    | true => exact h _ _ fun b hb => List.mem_of_mem_tail hb
  · exact h _ _ fun b hb => hb

lemma fat32FileTruncate_rule (h : Q fs)
    (hio : ∀ rel nodes, nodes = fs.nodes ∨ nodes = setSize fs.nodes i size →
      Q { (fs.io (fat32TruncatePath v rel (u32 size))).2 with nodes := nodes }) :
    Q (fat32FileTruncate v fs i size).2 := by
  rw [fat32FileTruncate]
  cases fs.nodes[i]? with
  | none => exact h
  | some node =>
    dsimp only
    cases node.priv with
    | none => exact h
    | some pd =>
      dsimp only
      split
      · exact h
      cases entryPath fs.nodes i with
      | none => exact h
      | some rel =>
        have hkept := hio rel _ (.inl rfl)
        have hset := hio rel _ (.inr rfl)
        have hnodes : (fs.io (fat32TruncatePath v rel (u32 size))).2.nodes = fs.nodes := rfl
        dsimp only
        rw [← hnodes] at hkept hset
        generalize fs.io _ = res at hkept hset ⊢
        obtain ⟨r, fs'⟩ := res
        cases r with
        | ok => exact hset
        | err => exact hkept
        | fault => exact hkept

lemma openNode_rule (h : ∀ fs', fs' = fs ∨ fs' = (fat32FileTruncate v fs i 0).2 →
    Q fs' ∧ Q (openFile fs' free i flags).2) : Q (openNode v fs free i flags).2 := by
  have hsame := h fs (.inl rfl)
  have htrunc := h _ (.inr rfl)
  rw [openNode]
  cases fs.nodes[i]? with
  | none => exact hsame.1
  | some node =>
    dsimp only
    split
    · generalize fat32FileTruncate v fs i 0 = res at htrunc ⊢
      obtain ⟨r, fs'⟩ := res
      cases r with
      | ok n => exact htrunc.2
      | err => exact htrunc.1
      | fault => exact htrunc.1
    · exact hsame.2

/-- A path that resolves is opened; another one is created, resolved again and opened. -/
lemma fdOpenEx_rule (h : Q fs) (h1 : Q (vfsResolve v fs path).2)
    (hopen : ∀ i, (vfsResolve v fs path).1 = some i →
      Q (openNode v (vfsResolve v fs path).2 free i flags).2)
    (hcreate : (vfsResolve v fs path).1 = none → oCreat flags = true → ∀ fs2,
      fs2 = (fat32CreateFile v (vfsResolve v fs path).2 path).2 →
      Q fs2 ∧ Q (vfsResolve v fs2 path).2 ∧
        ∀ i, Q (openNode v (vfsResolve v fs2 path).2 free i flags).2) :
    Q (fdOpenEx v fs free path flags).2 := by
  rw [fdOpenEx]
  split
  · exact h
  split
  · exact h
  generalize vfsResolve v fs path = res at h1 hopen hcreate ⊢
  obtain ⟨r, fs1⟩ := res
  cases r with
  | some i =>
    dsimp only
    split
    · exact h1
    · exact hopen i rfl
  | none =>
    dsimp only
    split_ifs with hcreat
    · exact h1
    obtain ⟨h2, h3, hnode⟩ := hcreate rfl (by simpa using hcreat) _ rfl
    generalize fat32CreateFile v fs1 path = res at h2 h3 hnode ⊢
    obtain ⟨ok, fs2⟩ := res
    cases ok with
    | false => exact h2
    | true =>
      dsimp only at h3 hnode ⊢
      generalize vfsResolve v fs2 path = res at h3 hnode ⊢
      obtain ⟨r, fs3⟩ := res
      cases r with
      | none => exact h3
      | some i => exact hnode i

lemma fat32CreateFile_nodes (v : Vol) (fs : Fs) (path : List UInt8) :
    (fat32CreateFile v fs path).2.nodes = fs.nodes ∧
      (fat32CreateFile v fs path).2.grants = fs.grants := by
  rw [fat32CreateFile]
  cases fat32RelPath path with
  | none => exact ⟨rfl, rfl⟩
  | some rel => exact ⟨rfl, rfl⟩

end
end FermiOs.Fat32
