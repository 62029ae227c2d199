import FermiOs.Fs.Fat32.Steps
import FermiOs.Library.Run

/-!
# Runs of file calls

One task opens, reads, writes and seeks on a volume whose device answers every transfer. In a run that
creates files under new names only, and writes no buffer of a multiple of 4 GiB behind the end of a
chain, the volume stays well formed.
-/

namespace FermiOs.Fat32
open Library

/-! ## Opening, reading, seeking -/

/-- A path as the kernel copies it in: no byte of it is zero. -/
def CString : Type := { path : List UInt8 // 0 ∉ path }

/-- The call creates a file: the path does not resolve, and `O_CREAT` is set. -/
def Creates (v : Vol) (fs : Fs) (path : CString) (flags : Nat) : Prop :=
  (vfsResolve v fs path.1).1 = none ∧ oCreat flags = true
deriving Decidable

section
variable {v : Vol} (hv : v.Shaped) {lim m : Nat} (hlim : lim ≤ v.entries) {fs : Fs}

lemma openFile_same (fs : Fs) (free : Bool) (i flags : Nat) :
    (openFile fs free i flags).2.disk = fs.disk ∧ (openFile fs free i flags).2.nodes = fs.nodes :=
  openFile_rule (Q := fun fs' => fs'.disk = fs.disk ∧ fs'.nodes = fs.nodes) fun _ _ _ => ⟨rfl, rfl⟩

lemma openFile_sound (h : Sound v lim m fs) (free : Bool) (i flags : Nat) :
    Sound v lim m (openFile fs free i flags).2 :=
  openFile_rule fun _ _ _ => ⟨h.wf, h.answers, h.tied, h.sized⟩

/-- A seek moves the offset of its description, or does nothing. -/
lemma fdSeek_cases (fs : Fs) (f : Nat) (offset : Int) (whence : Whence) :
    fdSeek fs f offset whence = (.err, fs) ∨ ∃ file n, fs.files[f]? = some file ∧
      fdSeek fs f offset whence =
        (.ok n, { fs with files := fs.files.set f { file with offset := n } }) := by
  rw [fdSeek]
  cases hfile : fs.files[f]? with
  | none => exact .inl rfl
  | some file =>
    dsimp only
    cases hnode : fs.nodes[file.vnode]? with
    | none => exact .inl rfl
    | some node =>
      dsimp only
      split
      · exact .inl rfl
      -- whatever the target is
      split
      · exact .inl rfl
      · split
        · exact .inl rfl
        · exact .inr ⟨file, _, rfl, rfl⟩

lemma fdSeek_sound (h : Sound v lim m fs) (f : Nat) (offset : Int) (whence : Whence) :
    Sound v lim m (fdSeek fs f offset whence).2 := by
  rcases fdSeek_cases fs f offset whence with heq | ⟨file, n, -, heq⟩
  · rw [heq]
    exact h
  · rw [heq]
    exact ⟨h.wf, h.answers, h.tied, h.sized⟩

include hv hlim

omit hlim in
/-- Opening a vnode rewrites a size at most. -/
lemma openNode_disk {fs1 : Fs} (hans : ∀ k t, fs1.device k t = .ok) {r : List Nat}
    (hr : ChainAt v fs1.disk v.entries v.root r) (free : Bool) (i flags : Nat) :
    (openNode v fs1 free i flags).2.disk = fs1.disk ∨ ∃ s : Loc, v.dataStart ≤ s.1 ∧
      (openNode v fs1 free i flags).2.disk = putSize fs1.disk s 0 := by
  have htrunc : (fat32FileTruncate v fs1 i 0).2.disk = fs1.disk ∨ ∃ s : Loc, v.dataStart ≤ s.1 ∧
      (fat32FileTruncate v fs1 i 0).2.disk = putSize fs1.disk s 0 := by
    refine fat32FileTruncate_rule (Q := fun fs' => fs'.disk = fs1.disk ∨ ∃ s : Loc,
      v.dataStart ≤ s.1 ∧ fs'.disk = putSize fs1.disk s 0) (.inl rfl) fun rel nodes _ => ?_
    obtain ⟨res, d, k, hio, hd⟩ := fs1.io_spec
      (wp_fat32TruncatePath hv (tableReads_none v) hr rel (u32 0))
      fun i t hne => absurd (hans i t) hne
    rw [hio]
    cases hd with
    | kept => exact .inl rfl
    | put _ hs _ => exact .inr ⟨_, search_data hv hr hs, rfl⟩
  refine openNode_rule (Q := fun fs' => fs'.disk = fs1.disk ∨ ∃ s : Loc,
    v.dataStart ≤ s.1 ∧ fs'.disk = putSize fs1.disk s 0) fun fs' hfs' => ?_
  rw [(openFile_same fs' free i flags).1]
  rcases hfs' with rfl | rfl
  · exact ⟨.inl rfl, .inl rfl⟩
  · exact ⟨htrunc, htrunc⟩

lemma openNode_sound (h : Sound v lim m fs) (free : Bool) (i flags : Nat) :
    Sound v lim m (openNode v fs free i flags).2 := by
  refine openNode_rule fun fs' hfs' => ?_
  have hs : Sound v lim m fs' := by
    rcases hfs' with rfl | rfl
    · exact h
    · exact fat32FileTruncate_sound hv hlim h i
  exact ⟨hs, openFile_sound hs free i flags⟩

/-- **Opening** keeps the invariant if a file is created under a new name, with a cluster for it. -/
lemma fdOpenEx_sound (h : Sound v lim m fs) (free : Bool) (path : CString) (flags : Nat)
    (hroom : lim = v.entries ∨ (Creates v fs path flags → freeBelow v fs.disk lim ≠ []))
    (hnew : Creates v fs path flags → ∀ rel ∈ fat32RelPath path.1, NewName v fs.disk rel) :
    Sound v lim m (fdOpenEx v fs free path.1 flags).2 := by
  have h1 := vfsResolve_sound hv hlim h path.2
  have hdisk := (vfsResolve_cached v fs path.1).disk
  refine fdOpenEx_rule h h1 (fun i _ => openNode_sound hv hlim h1 free i flags) ?_
  rintro hnone hcreat fs2 rfl
  have hroom' : lim = v.entries ∨
      ∃ c, 2 ≤ c ∧ c < lim ∧ fatVal v (vfsResolve v fs path.1).2.disk c = 0 := by
    refine hroom.imp_right fun hroom => ?_
    obtain ⟨c, hmem⟩ := List.exists_mem_of_ne_nil _ (hroom ⟨hnone, hcreat⟩)
    obtain ⟨hlt, h2, h0⟩ := mem_freeBelow.mp hmem
    exact ⟨c, h2, hlt, by rw [hdisk]; exact h0⟩
  have h₂ := fat32CreateFile_sound hv hlim h1 path.2 hroom'
    (by rw [hdisk]; exact hnew ⟨hnone, hcreat⟩)
  have h3 := vfsResolve_sound hv hlim h₂ path.2
  exact ⟨h₂, h3, fun i => openNode_sound hv hlim h3 free i flags⟩

omit hv hlim in
/-- A read call does nothing but ask for memory, or transfers and then moves the offset. -/
lemma fdRead_cases (v : Vol) (fs : Fs) (f count : Nat) :
    (∃ r grants, (r = none ∨ r = some []) ∧ fdRead v fs f count = (r, { fs with grants := grants })) ∨
      ∃ file node pd, fs.files[f]? = some file ∧ fs.nodes[file.vnode]? = some node ∧
        node.type = .reg ∧ node.priv = some pd ∧ file.offset < pd.size ∧
        fdRead v fs f count =
          match Fs.io { fs with grants := fs.grants.tail } (fat32FileRead v pd file.offset count) with
          | (none, fs) => (none, fs)
          | (some bytes, fs) =>
            (some bytes, { fs with
                files := fs.files.set f { file with offset := file.offset + bytes.length } }) := by
  rw [fdRead]
  cases hfile : fs.files[f]? with
  | none => exact .inl ⟨none, fs.grants, .inl rfl, rfl⟩
  | some file =>
    dsimp only
    cases hnode : fs.nodes[file.vnode]? with
    | none => exact .inl ⟨none, fs.grants, .inl rfl, rfl⟩
    | some node =>
      dsimp only
      cases htype : node.type with
      | dir => exact .inl ⟨none, fs.grants, .inl rfl, rfl⟩
      | chr => exact .inl ⟨none, fs.grants, .inl rfl, rfl⟩
      | blk => exact .inl ⟨none, fs.grants, .inl rfl, rfl⟩
      | reg =>
        cases hpriv : node.priv with
        | none => exact .inl ⟨none, fs.grants, .inl rfl, rfl⟩
        | some pd =>
          dsimp only
          split
          · exact .inl ⟨none, fs.grants, .inl rfl, rfl⟩
          split_ifs with hoff
          · exact .inl ⟨some [], fs.grants, .inr rfl, rfl⟩
          rw [Fs.kmalloc]
          cases fs.grants.headD true with
          | false => exact .inl ⟨none, fs.grants.tail, .inl rfl, rfl⟩
          | true =>
            exact .inr ⟨file, node, pd, rfl, hnode, htype, hpriv, Nat.not_le.mp hoff, rfl⟩

/-- A read keeps the invariant and changes no sector. -/
lemma fdRead_sound (h : Sound v lim m fs) (f count : Nat) :
    Sound v lim m (fdRead v fs f count).2 ∧ (fdRead v fs f count).2.disk = fs.disk := by
  rcases fdRead_cases v fs f count with
    ⟨r, grants, -, heq⟩ | ⟨file, node, pd, -, hnode, htype, hpriv, hoff, heq⟩
  · rw [heq]
    exact ⟨⟨h.wf, h.answers, h.tied, h.sized⟩, rfl⟩
  rw [heq]
  rcases h.sized _ node pd hnode hpriv htype with ⟨-, h0⟩ | ⟨l, hl, hle⟩
  · omega
  obtain ⟨res, d, k, hio, rfl, -⟩ := Fs.io_spec { fs with grants := fs.grants.tail }
    (wp_fat32FileRead hv hlim (tableReads_none v) hl hle hoff count)
    fun i t hne => absurd (h.answers i t) hne
  rw [hio]
  cases res with
  | none => exact ⟨⟨h.wf, h.answers, h.tied, h.sized⟩, rfl⟩
  | some bytes => exact ⟨⟨h.wf, h.answers, h.tied, h.sized⟩, rfl⟩

end

/-! ## Runs -/

/-- The calls of a task; `free` says whether its descriptor table has an empty slot. -/
inductive FileCall
  | open (free : Bool) (path : CString) (flags : Nat)
  | read (f count : Nat)
  | write (f : Nat) (data : List UInt8)
  | seek (f : Nat) (offset : Int) (whence : Whence)

/-- The state after a call. -/
def FileCall.run (v : Vol) (fs : Fs) : FileCall → Fs
  | .open free path flags => (fdOpenEx v fs free path.1 flags).2
  | .read f count => (fdRead v fs f count).2
  | .write f data => (fdWrite v fs f data).2
  | .seek f offset whence => (fdSeek fs f offset whence).2

/-- There are free clusters for what a call creates or writes. -/
def HasRoom (v : Vol) (lim : Nat) (fs : Fs) : FileCall → Prop
  | .open _ path flags => Creates v fs path flags → freeBelow v fs.disk lim ≠ []
  | .write f data => WriteRoom v lim fs f data
  | _ => True

/-- A call creates a file under a new name only, and its buffer is not cut to nothing behind the end of
the chain. -/
def Orderly (v : Vol) (fs : Fs) : FileCall → Prop
  | .open _ path flags => Creates v fs path flags → ∀ rel ∈ fat32RelPath path.1, NewName v fs.disk rel
  | .write f data => WriteInside v fs f data
  | _ => True

instance (v : Vol) (lim : Nat) (fs : Fs) (c : FileCall) : Decidable (HasRoom v lim fs c) :=
  match c with
  | .open .. | .read .. | .write .. | .seek .. => by dsimp only [HasRoom]; infer_instance

instance (v : Vol) (fs : Fs) (c : FileCall) : Decidable (Orderly v fs c) :=
  match c with
  | .open .. | .read .. | .write .. | .seek .. => by dsimp only [Orderly]; infer_instance

/-- The state behind a mount: the mount point `m` is the only vnode of the file system. -/
structure Mounted (v : Vol) (lim m : Nat) (fs : Fs) : Prop where
  wf : Wf v fs.disk lim
  answers : ∀ k t, fs.device k t = .ok
  mount : IsMount v (shapes fs.nodes) m
  only : ∀ i node, fs.nodes[i]? = some node → node.priv.isSome = true → i = m

section
variable {v : Vol} (hv : v.Shaped) {lim m : Nat} (hlim : lim ≤ v.entries) {fs fs₀ : Fs}

lemma Mounted.sound (h : Mounted v lim m fs) : Sound v lim m fs where
  wf := h.wf
  answers := h.answers
  tied := by
    refine ⟨h.mount, fun i s c hi hc him => absurd ?_ him⟩
    obtain ⟨node, hn, rfl⟩ := shapes_eq_some.mp hi
    obtain ⟨pd, hp, -⟩ := Vnode.first_eq_some.mp hc
    exact h.only i node hn (by rw [hp]; rfl)
  sized := by
    intro i node pd hnode hpriv htype
    obtain rfl := h.only i node hnode (by rw [hpriv]; rfl)
    obtain ⟨s, hs, hdir, -⟩ := h.mount.node
    obtain rfl := Option.mem_unique (shapes_of_node hnode) hs
    exact VnodeType.noConfusion (hdir.symm.trans htype)

include hv hlim

lemma FileCall.run_sound (h : Sound v lim m fs) (c : FileCall)
    (hroom : lim = v.entries ∨ HasRoom v lim fs c) (horder : Orderly v fs c) : Sound v lim m (c.run v fs) := by
  cases c with
  | «open» free path flags => exact fdOpenEx_sound hv hlim h free path flags hroom horder
  | read f count => exact (fdRead_sound hv hlim h f count).1
  | write f data => exact fdWrite_sound hv hlim h f data hroom horder
  | seek f offset whence => exact fdSeek_sound h f offset whence

/-- **The volume stays well formed** in every run that has the room it needs and is orderly. -/
theorem runs_keep_volume (h₀ : Mounted v lim m fs₀)
    (h : Reach (· = fs₀) (fun s c => HasRoom v lim s c ∧ Orderly v s c) (FileCall.run v) fs) :
    Wf v fs.disk lim := by
  have hsound : Sound v lim m fs := h.invariant (Sound v lim m)
    (fun s hs => by rw [hs]; exact h₀.sound)
    fun s c hs hg => FileCall.run_sound hv hlim hs c (.inr hg.1) hg.2
  exact hsound.wf

end

/-! ## A name of more than twelve bytes -/

/-- The bytes of a file's entry in slot `i`, under an 8.3 name. -/
def entryBytesAt (i : Nat) (name : List UInt8) (first : Nat) : List (Nat × UInt8) :=
  (List.range 11).map (fun k => (32 * i + k, (to83 name).getD k 0)) ++
    [(32 * i + 11, 0x20), (32 * i + 26, UInt8.ofNat first)]

/-- `LONGFILE`. -/
def longFile : List UInt8 := [76, 79, 78, 71, 70, 73, 76, 69]

/-- `LONGFILENAME1`. -/
def longFileName1 : List UInt8 := longFile ++ [78, 65, 77, 69, 49]

/-- A deleted entry, then the empty file `LONGFILE` with cluster 3. -/
def erasedFirst : Disk := fun n =>
  if n = 1 then sectorOf (tableBytes 2 fatMark ++ tableBytes 3 fatMark)
  else if n = 2 then sectorOf ((0, 0xE5) :: entryBytesAt 1 longFile 3)
  else sectorOf []

/-- The vnodes `/`, `/mnt` and `/mnt/fat32`. -/
def mountNodes : List Vnode :=
  [⟨[47], .dir, none, none, 0⟩, ⟨[109, 110, 116], .dir, some 0, none, 0⟩,
    ⟨[102, 97, 116, 51, 50], .dir, some 1, some ⟨2, 0⟩, 0⟩]

/-- The small volume behind the mount. -/
def mountedOn (d : Disk) : Fs := ⟨d, fun _ _ => .ok, 0, mountNodes, [], []⟩

lemma mountedOn_mounted {d : Disk} (h : Wf smallVol d 128) : Mounted smallVol 128 2 (mountedOn d) where
  wf := h
  answers := fun _ _ => rfl
  mount := ⟨⟨_, rfl, rfl, rfl⟩, 1, 0, _, _, _, rfl, rfl, rfl, rfl, rfl, rfl, rfl, rfl⟩
  only := by
    intro i node hnode hpriv
    match i with
    | 0 => cases hnode; cases hpriv
    | 1 => cases hnode; cases hpriv
    | 2 => rfl
    | i + 3 => cases hnode

lemma erasedFirst_flat : Flat smallVol erasedFirst 128 [2] [((2, 1), [3])] := by decide +kernel

lemma erasedFirst_wf : Wf smallVol erasedFirst 128 :=
  erasedFirst_flat.wf smallVol_shaped le_rfl

/-- A path below the mount point. -/
def below (name : List UInt8) : List UInt8 := mountPath ++ 47 :: name

/-- The files `A` and `B` in the root. -/
def pathA : CString := ⟨below [65], by decide⟩

def pathB : CString := ⟨below [66], by decide⟩

/-- The file is opened and written, another one created, written and truncated. -/
def orderlyRun : List FileCall :=
  [.open true ⟨below longFile, by decide⟩ 2, .write 0 (List.replicate 600 7),
    .open true pathB 66, .write 1 [8], .seek 1 0 .set, .read 1 10,
    .open true pathB 514]

theorem runs_keep_volume_orderly :
    Wf smallVol (orderlyRun.foldl (FileCall.run smallVol) (mountedOn erasedFirst)).disk 128 :=
  runs_keep_volume smallVol_shaped le_rfl (mountedOn_mounted erasedFirst_wf)
    (have h₀ : Reach (· = mountedOn erasedFirst)
        (fun s c => HasRoom smallVol 128 s c ∧ Orderly smallVol s c) (FileCall.run smallVol)
        (mountedOn erasedFirst) := .start rfl
     h₀.obeys (show Obeys _ _ _ orderlyRun by decide +kernel))

/-- `LONGFILE` is opened, `LONGFILENAME1` is created, and the first one is written. -/
def twiceRun : List FileCall :=
  [.open true ⟨below longFile, by decide⟩ 2, .open true ⟨below longFileName1, by decide⟩ 66,
    .write 0 (List.replicate 600 7)]

/-- The new entry gets the 8.3 name of the first file and stands before it, so that the size of the
first file is stored in it: more than its one cluster holds. -/
theorem long_name_breaks_volume : Mounted smallVol 128 2 (mountedOn erasedFirst) ∧
      Obeys (HasRoom smallVol 128) (FileCall.run smallVol) (mountedOn erasedFirst) twiceRun ∧
      ¬ Wf smallVol (twiceRun.foldl (FileCall.run smallVol) (mountedOn erasedFirst)).disk 128 := by
  refine ⟨mountedOn_mounted erasedFirst_wf, by decide +kernel, fun h => ?_⟩
  generalize hd : (twiceRun.foldl (FileCall.run smallVol) (mountedOn erasedFirst)).disk = d at h
  have hfacts : ((2, 0) ∈ liveSlots smallVol d [2] ∧ checkChain smallVol d 128 2 [2] = true) ∧
      (entryAt d (2, 0)).attr &&& 0x10 = 0 ∧ entryAt d (2, 0) 0 ≠ 46 ∧
      checkChain smallVol d 128 (entryAt d (2, 0)).first [4] = true ∧
      (entryAt d (2, 0)).size = 600 := by
    rw [← hd]
    decide +kernel
  obtain ⟨⟨hslot, hroot⟩, hfile, hdot, hchain, hsize⟩ := hfacts
  have hlive : Live smallVol d 128 (2, 0) := .root (chainAt_of_check (by decide) hroot) hslot
  have hl := chainAt_of_check (l := [4]) (by decide) hchain
  rcases h.size (2, 0) hlive hdot (fun hd => hd hfile) with ⟨-, h0⟩ | ⟨l, hl', hle⟩
  · omega
  · obtain rfl := hl'.unique smallVol_shaped hl le_rfl
    rw [hsize] at hle
    revert hle
    decide

end FermiOs.Fat32
