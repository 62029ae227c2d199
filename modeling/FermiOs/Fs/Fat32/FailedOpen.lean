import FermiOs.Fs.Fat32.Runs

/-!
# Opens that fail

`fd_open_ex` creates and truncates before it takes a descriptor and allocates the description, and
`fat32_create` takes a cluster before it looks for a slot. An open that returns -1 leaves everything as
it was exactly if it neither got as far as the cluster of a new file nor truncated a file that was not
empty.
-/

namespace FermiOs.Fat32
open Library List Function
variable {d : Disk} {fs₁ : Fs} {i : Nat} {node : Vnode} {path : List UInt8} {pd : Priv}

/-- The volume is the same, vnodes are kept, and one that the path adds is as its lookup made it. -/
structure Unchanged (v : Vol) (path : List UInt8) (fs fs' : Fs) : Prop where
  disk : fs'.disk = fs.disk
  kept : fs.nodes <+: fs'.nodes
  cached : ∀ (i : Nat) node node', (vfsResolve v fs path).2.nodes[i]? = some node →
    fs'.nodes[i]? = some node' → node' = node

/-- Truncating vnode `i` changes something: it is a file of the root directory that is not empty, on
the disk or in the vnode. -/
def Shortens (v : Vol) (m : Nat) (fs : Fs) (i : Nat) : Prop :=
  ∃ node ∈ fs.nodes[i]?, ∃ pd ∈ node.priv, node.type = .reg ∧ node.parent = some m ∧
    (node.size ≠ 0 ∨ pd.size ≠ 0 ∨
      ∃ s ∈ search (sizeVerdict (to83 node.name)) fs.disk
        (dirSlots v (chainFrom v fs.disk v.entries v.root)), (entryAt fs.disk s).size ≠ 0)

/-- The open gets as far as the cluster of a new file, or truncates a file that is not empty. -/
def Touches (v : Vol) (m : Nat) (fs : Fs) (path : List UInt8) (flags : Nat) : Prop :=
  flags % 4 ≠ 3 ∧ (oExcl flags = true → oCreat flags = true) ∧
    match vfsResolve v fs path with
    | (some i, fs') => (oCreat flags = true → oExcl flags = false) ∧ oTrunc flags = true ∧
        Shortens v m fs' i
    | (none, fs') => oCreat flags = true ∧ ∃ rel ∈ fat32RelPath path,
        (walkNames v fs'.disk v.root (components ((splitLast rel).1.getD []))).isSome = true ∧
          freeBelow v fs'.disk v.entries ≠ []

/-! ## Truncation -/

/-- Storing the size zero over itself changes nothing. -/
lemma putSize_zero {s : Loc} (h : (entryAt d s).size = 0) : putSize d s 0 = d := by
  have hbytes : ∀ k, k < 4 → d s.1 (32 * s.2 + 28 + k) = 0 := by
    simp only [DirEntry.size, le32, le16, entryAt, slotOf] at h
    intro k hk
    apply UInt8.toNat_inj.mp
    rw [UInt8.toNat_zero]
    obtain rfl | rfl | rfl | rfl : k = 0 ∨ k = 1 ∨ k = 2 ∨ k = 3 := by omega
    all_goals
      simp only [add_assoc, Nat.reduceAdd, add_zero] at h ⊢
      omega
  rw [putSize, update_eq_self_iff]
  funext i
  rw [setLe32]
  split_ifs with hi
  · have hbyte := hbytes (i - (32 * s.2 + 28)) (by omega)
    have hi' : 32 * s.2 + 28 + (i - (32 * s.2 + 28)) = i := by omega
    rw [hi'] at hbyte
    rw [Nat.zero_div, hbyte]
    rfl
  · rfl

/-- Where a lookup finds an entry, so does `fat32_truncate_path`. -/
lemma sizeSlot_exists {slots : List Loc} {e : Loc} {name : List UInt8}
    (h : search (lookupVerdict name) d slots = some e) :
    ∃ t, search (sizeVerdict name) d slots = some t := by
  induction slots with
  | nil => cases h
  | cons s slots ih =>
    rw [search] at h ⊢
    cases hs : sizeVerdict name (entryAt d s) with
    | hit => exact ⟨s, rfl⟩
    | stop =>
      rw [sizeVerdict] at hs
      repeat' split at hs
      all_goals cases hs
    | skip =>
      cases hl : lookupVerdict name (entryAt d s) with
      | stop =>
        rw [hl] at h
        cases h
      | skip =>
        rw [hl] at h
        exact ih h
      | hit => cases hs.symm.trans (sizeVerdict_of_lookup hl)

lemma Under.mount_nil {T : Nat → Option Shape} {m : Nat} {xs : List (List UInt8)}
    (h : Under T m m xs) : xs = [] := by
  cases h with
  | mount => rfl
  | child _ _ _ _ hne => exact absurd rfl hne

section
variable {v : Vol} (hv : v.Shaped) {lim m : Nat} (hlim : lim ≤ v.entries) {fs : Fs}

/-- How the truncation of a file ends: in the root directory it succeeds, elsewhere nothing happens. -/
inductive Shortened (v : Vol) (m : Nat) (fs : Fs) (i : Nat) (node : Vnode) (r : List Nat) :
    Ret × Fs → Prop
  | root {s : Loc} {k : Nat} (hp : node.parent = some m)
      (hs : search (sizeVerdict (to83 node.name)) fs.disk (dirSlots v r) = some s) :
      Shortened v m fs i node r
        (.ok 0, { fs with disk := putSize fs.disk s 0, clock := k, nodes := setSize fs.nodes i 0 })
  | sub {res : Ret} {k : Nat} (hp : node.parent ≠ some m) (hres : ∀ n, res ≠ .ok n) :
      Shortened v m fs i node r (res, { fs with clock := k })

include hv hlim

lemma fat32FileTruncate_cases (h : Sound v lim m fs) (hnode : fs.nodes[i]? = some node)
    (hpriv : node.priv = some pd) (htype : node.type = .reg) {r : List Nat}
    (hr : ChainAt v fs.disk lim v.root r) :
    Shortened v m fs i node r (fat32FileTruncate v fs i 0) := by
  obtain ⟨p, xs, o, mp, e, ht, hunder, -, -⟩ := h.fileOf hnode hpriv htype
  have hparent : node.parent = some p := ht.parent
  simp only [fat32FileTruncate, hnode, hpriv, if_neg (Nat.not_lt_zero _)]
  by_cases hpm : node.parent = some m
  · obtain rfl : p = m := Option.mem_unique hparent hpm
    obtain rfl := ht.under.mount_nil
    have hpath : entryPath fs.nodes i = some node.name := entryPath_root h.tied.mount hunder ht.short
    have hsplit : splitLast node.name = (none, node.name) := splitLast_component ht.name
    obtain ⟨t, hslot⟩ : ∃ t, search (sizeVerdict (to83 node.name)) fs.disk (dirSlots v r) = some t := by
      -- the directory of the mount point is the root
      obtain ⟨ms, hms, -, hfirst⟩ := h.tied.mount.node
      obtain rfl := (ht.chain hms hfirst).unique hv hr hlim
      exact sizeSlot_exists ht.found
    obtain ⟨res, d, k, hio, hd⟩ := fs.io_spec
      (wp_fat32TruncatePath hv (tableReads_none v) (hr.mono hlim) node.name (u32 0))
      fun i t hne => absurd (h.answers i t) hne
    rw [hpath]
    dsimp only
    rw [hio]
    cases hd with
    | kept _ hwhy =>
      have hshort := ht.short
      rw [hsplit] at hwhy
      rcases hwhy with hne | hlong | hnone | ⟨_, hf⟩
      · exact absurd rfl hne
      · dsimp only [Vnode.shape] at hlong hshort
        omega
      · rw [hslot] at hnone
        cases hnone
      · exact hf.elim
    | put _ hs hok =>
      rw [hsplit] at hs
      rcases hok with rfl | ⟨_, hf⟩
      · exact .root hpm hs
      · exact hf.elim
  cases hpath : entryPath fs.nodes i with
  | none => exact .sub (k := fs.clock) hpm fun n => Ret.noConfusion
  | some rel =>
    have hdir : (splitLast rel).1 ≠ none := by
      cases xs with
      | nil =>
        -- the parent would be the mount point
        have hu := ht.under
        generalize hys : ([] : List (List UInt8)) = ys at hu
        cases hu with
        | mount => exact absurd hparent hpm
        | child => simp at hys
      | cons x xs =>
        obtain rfl := entryPath_eq h.tied.mount hunder hpath
        have hx := hunder.components x mem_cons_self
        cases xs with
        | nil => exact splitLast_joined hx
        | cons y ys => exact splitLast_joined hx
    obtain ⟨res, d, k, hio, hd⟩ := fs.io_spec
      (wp_fat32TruncatePath hv (tableReads_none v) (hr.mono hlim) rel (u32 0))
      fun i t hne => absurd (h.answers i t) hne
    dsimp only
    rw [hio]
    cases hd with
    | kept hr _ =>
      cases res with
      | ok => exact absurd rfl hr
      | err => exact .sub hpm fun n => Ret.noConfusion
      | fault => exact .sub hpm fun n => Ret.noConfusion
    | put hroot _ _ => exact absurd hroot hdir

end

/-! ## Opening -/

section
variable {v : Vol} (hv : v.Shaped) {lim m : Nat} (hlim : lim ≤ v.entries) {fs : Fs}

/-- A state with the vnodes of the lookup. -/
lemma Unchanged.of_lookup {fs' : Fs} (hdisk : fs'.disk = fs.disk)
    (hnodes : fs'.nodes = (vfsResolve v fs path).2.nodes) : Unchanged v path fs fs' where
  disk := hdisk
  kept := by
    rw [hnodes]
    exact (vfsResolve_cached v fs path).nodes
  cached := by
    intro i node node' hi hi'
    rw [hnodes, hi] at hi'
    exact (Option.some.inj hi').symm

lemma Unchanged.refl (v : Vol) (path : List UInt8) (fs : Fs) : Unchanged v path fs fs where
  disk := rfl
  kept := prefix_rfl
  cached := by
    intro i node node' hi hi'
    obtain ⟨xs, hxs⟩ := (vfsResolve_cached v fs path).nodes
    rw [← hxs, getElem?_append_left (List.getElem?_eq_some_iff.mp hi').1, hi'] at hi
    exact Option.some.inj hi

lemma setSize_zero {nodes : List Vnode} (hnode : nodes[i]? = some node)
    (hpriv : node.priv = some pd) (hsize : node.size = 0) (hpd : pd.size = 0) :
    setSize nodes i 0 = nodes := by
  refine ext_getElem? fun j => ?_
  by_cases hj : i = j
  · subst hj
    rw [getElem?_setSize hnode, hnode, hpriv]
    obtain ⟨name, type, parent, priv, size⟩ := node
    obtain ⟨first, size'⟩ := pd
    cases hsize
    cases hpriv
    cases hpd
    rfl
  · rw [setSize, getElem?_modify_ne _ _ hj]

include hv hlim

/-- A failed open of a vnode changes something exactly if it truncates a file that is not empty. -/
lemma openNode_unchanged_iff (h₁ : Sound v lim m fs₁) (hdisk : fs₁.disk = fs.disk)
    (hnodes : fs₁.nodes = (vfsResolve v fs path).2.nodes) (free : Bool) (i flags : Nat) :
    Unchanged v path fs (openNode v fs₁ free i flags).2 ↔ ¬ (oTrunc flags = true ∧ Shortens v m fs₁ i) := by
  rw [openNode]
  cases hnode : fs₁.nodes[i]? with
  | none =>
    refine ⟨fun _ => ?_, fun _ => .of_lookup hdisk hnodes⟩
    rintro ⟨-, node, hmem, -⟩
    rw [hnode] at hmem
    cases hmem
  | some node =>
    dsimp only
    split_ifs with hcond
    · obtain ⟨htrunc, htype, hsome⟩ := hcond
      obtain ⟨pd, hpriv⟩ := Option.isSome_iff_exists.mp hsome
      obtain ⟨r, -, hr⟩ := h₁.wf.dir_owns (o := .root) trivial trivial
      have hcases := fat32FileTruncate_cases hv hlim h₁ hnode hpriv htype hr
      generalize fat32FileTruncate v fs₁ i 0 = res at hcases ⊢
      cases hcases with
      | @sub res k hp hres =>
        refine ⟨fun _ => ?_, fun _ => ?_⟩
        · rintro ⟨-, node', hmem, pd', -, -, hparent, -⟩
          obtain rfl := Option.mem_unique hnode hmem
          exact hp hparent
        · cases res with
          | ok n => exact absurd rfl (hres n)
          | err => exact .of_lookup hdisk hnodes
          | fault => exact .of_lookup hdisk hnodes
      | @root s k hp hs =>
        obtain ⟨hd, hn⟩ := openFile_same
          { fs₁ with disk := putSize fs₁.disk s 0, clock := k, nodes := setSize fs₁.nodes i 0 }
          free i flags
        have hchain : chainFrom v fs₁.disk v.entries v.root = r := chainFrom_eq hv hlim hr
        constructor
        · rintro hun ⟨-, node', hmem, pd', hpd', -, -, hlarge⟩
          obtain rfl := Option.mem_unique hnode hmem
          obtain rfl := Option.mem_unique hpriv hpd'
          -- the vnode keeps its size, and so does the entry
          have hkept := hun.cached i node _ (by rw [← hnodes]; exact hnode)
            (by rw [hn]; exact getElem?_setSize hnode 0)
          have hput : putSize fs₁.disk s 0 = fs₁.disk := hd.symm.trans (hun.disk.trans hdisk.symm)
          have hsize : (entryAt fs₁.disk s).size = 0 := by
            have hsize := size_putSize fs₁.disk s 0
            rwa [hput] at hsize
          rcases hlarge with hne | hne | ⟨s', hs', hne⟩
          · exact hne (congrArg Vnode.size hkept).symm
          · have hpd := congrArg Vnode.priv hkept
            rw [hpriv] at hpd
            exact hne (congrArg Priv.size (Option.some.inj hpd)).symm
          · rw [hchain, hs] at hs'
            cases hs'
            exact hne hsize
        intro hnot
        have hzero : node.size = 0 ∧ pd.size = 0 ∧ (entryAt fs₁.disk s).size = 0 := by
          by_contra hne
          refine hnot ⟨htrunc, node, hnode, pd, hpriv, htype, hp, ?_⟩
          by_contra hall
          simp only [not_or, not_exists, not_and, Decidable.not_not] at hall
          refine hne ⟨hall.1, hall.2.1, hall.2.2 s ?_⟩
          rw [hchain]
          exact hs
        refine .of_lookup ?_ ?_
        · rw [hd, ← hdisk]
          exact putSize_zero hzero.2.2
        · rw [hn, ← hnodes]
          exact setSize_zero hnode hpriv hzero.1 hzero.2.1
    obtain ⟨hd, hn⟩ := openFile_same fs₁ free i flags
    refine ⟨fun _ => ?_, fun _ => .of_lookup (hd.trans hdisk) (hn.trans hnodes)⟩
    rintro ⟨htrunc, node', hmem, pd, hpd, htype, -⟩
    obtain rfl := Option.mem_unique hnode hmem
    exact hcond ⟨htrunc, htype, by rw [hpd]; rfl⟩

/-- What creating a file and opening it leaves: nothing changed, or a cluster is taken. -/
lemma create_unchanged_iff {rel : List UInt8} (h₁ : Sound v lim m fs₁)
    (hdisk : fs₁.disk = fs.disk) (hnodes : fs₁.nodes = (vfsResolve v fs path).2.nodes)
    (hrel : fat32RelPath path = some rel) (free : Bool) (flags : Nat) :
    Unchanged v path fs
        (match fat32CreateFile v fs₁ path with
          | (false, fs2) => (Ret.err, fs2)
          | (true, fs2) =>
            match vfsResolve v fs2 path with
            | (none, fs3) => (Ret.err, fs3)
            | (some i, fs3) => openNode v fs3 free i flags).2 ↔
      ¬ ((walkNames v fs₁.disk v.root (components ((splitLast rel).1.getD []))).isSome = true ∧
        freeBelow v fs₁.disk v.entries ≠ []) := by
  obtain ⟨ok, d, k, hio, hc⟩ := fs₁.io_spec (wp_fat32Create hv hlim (tableReads_none v) h₁.wf rel)
    fun i t hne => absurd (h₁.answers i t) hne
  -- a cluster that is taken stays taken
  have htaken : ∀ {d' : Disk} {g : Nat}, fatVal v d' g ≠ 0 → fatVal v fs₁.disk g = 0 → d' ≠ fs.disk := by
    rintro d' g hne h0 rfl
    rw [hdisk] at h0
    exact hne h0
  simp only [fat32CreateFile, hrel, hio]
  cases hc with
  | none hwhy =>
    refine ⟨fun _ => ?_, fun _ => .of_lookup hdisk hnodes⟩
    rintro ⟨hwalk, hfree⟩
    rcases hwhy with hnone | hall | ⟨_, hf⟩
    · rw [hnone] at hwalk
      cases hwalk
    · obtain ⟨c, hmem⟩ := exists_mem_of_ne_nil _ hfree
      obtain ⟨hlt, h2, h0⟩ := mem_freeBelow.mp hmem
      exact hall c h2 hlt h0
    · exact hf
  | @lost d g hm hwhy =>
    have hmark : fatVal v d g ≠ 0 := by
      have := hm.mark
      simp only [fatEoc] at this
      omega
    refine ⟨fun hun => absurd hun.disk (htaken hmark hm.first.free), fun hnot => absurd ?_ hnot⟩
    obtain ⟨dir, hwalk, -⟩ := hwhy.resolve_right fun h => h.elim fun _ => id
    refine ⟨by rw [hwalk]; rfl, ne_nil_of_mem (mem_freeBelow.mpr
      ⟨hm.first.upper, hm.first.lower, hm.first.free⟩)⟩
  | @added _ d1 g o mp t hm hdir ho hwalk ht hok =>
    have htd := slot_data hv hlim ho.2 (mem_of_search ht)
    have hmark : fatVal v (putSlot d1 t (newEntry ((splitLast rel).2.take 12) g)) g ≠ 0 := by
      rw [putSlot, fatVal_update hv hm.first.upper htd]
      have := hm.mark
      simp only [fatEoc] at this
      omega
    obtain rfl := hok.resolve_right fun h => h.elim fun _ => id
    refine ⟨fun hun => absurd hun.disk (htaken (g := g) ?_ hm.first.free), fun hnot => absurd ?_ hnot⟩
    · -- whatever comes behind the creation
      dsimp only
      have hcached := vfsResolve_cached v
        { fs₁ with
          disk := putSlot d1 t (newEntry ((splitLast rel).2.take 12) g)
          clock := k } path
      generalize vfsResolve v _ path = res at hcached ⊢
      obtain ⟨r, fs3⟩ := res
      have hd3 : fs3.disk = putSlot d1 t (newEntry ((splitLast rel).2.take 12) g) := hcached.disk
      cases r with
      | none =>
        rw [hd3]
        exact hmark
      | some i =>
        obtain ⟨r, -, hr⟩ := h₁.wf.dir_owns (o := .root) trivial trivial
        have hr3 : ChainAt v fs3.disk v.entries v.root r := by
          rw [hd3]
          refine ((hm.chain hlim hr).mono hlim).congr fun c hc => ?_
          exact fatVal_update hv (lt_of_lt_of_le (hr.range c hc).2 hlim) htd _
        have hans : ∀ k t, fs3.device k t = .ok := by
          rw [hcached.device]
          exact h₁.answers
        rcases openNode_disk hv hans hr3 free i flags with heq | ⟨s, hs, heq⟩
        · rw [heq, hd3]
          exact hmark
        · rw [heq, putSize, fatVal_update hv hm.first.upper hs, hd3]
          exact hmark
    · refine ⟨by rw [hwalk]; rfl, ne_nil_of_mem (mem_freeBelow.mpr
        ⟨hm.first.upper, hm.first.lower, hm.first.free⟩)⟩

/-- **An open, whatever it returns,** leaves everything as it was exactly if it does not get as far as
the cluster of a new file and does not truncate a file that is not empty. -/
theorem open_unchanged_iff (h : Sound v lim m fs) (free : Bool) (path : CString) (flags : Nat) :
    Unchanged v path.1 fs (fdOpenEx v fs free path.1 flags).2 ↔ ¬ Touches v m fs path.1 flags := by
  have h₁ := vfsResolve_sound hv hlim h path.2
  have hdisk := (vfsResolve_cached v fs path.1).disk
  rw [fdOpenEx, Touches]
  split
  · rename_i hbad
    exact ⟨fun _ hx => hx.1 hbad, fun _ => .refl v path.1 fs⟩
  rename_i hgood
  split
  · rename_i hbad
    refine ⟨fun _ hx => ?_, fun _ => .refl v path.1 fs⟩
    have hcreat := hx.2.1 hbad.1
    rw [hbad.2] at hcreat
    cases hcreat
  rename_i hvalid
  have hexcl : oExcl flags = true → oCreat flags = true := fun hx => by
    by_contra hne
    exact hvalid ⟨hx, by simpa using hne⟩
  have hnodes : (vfsResolve v fs path.1).2.nodes = (vfsResolve v fs path.1).2.nodes := rfl
  generalize hres : vfsResolve v fs path.1 = res at h₁ hdisk hnodes ⊢
  obtain ⟨r, fs₁⟩ := res
  cases r with
  | some i =>
    dsimp only at hdisk hnodes ⊢
    split_ifs with hboth
    · refine ⟨fun _ hx => ?_, fun _ => .of_lookup hdisk (by rw [hres])⟩
      have hno := hx.2.2.1 hboth.1
      rw [hboth.2] at hno
      cases hno
    rw [openNode_unchanged_iff hv hlim h₁ hdisk (by rw [hres]) free i flags]
    refine not_congr ⟨fun hx => ⟨hgood, hexcl, fun hc => ?_, hx⟩, fun hx => hx.2.2.2⟩
    cases hx : oExcl flags with
    | false => rfl
    | true => exact absurd ⟨hc, hx⟩ hboth
  | none =>
    dsimp only at hdisk hnodes ⊢
    split_ifs with hno
    · refine ⟨fun _ hx => ?_, fun _ => .of_lookup hdisk (by rw [hres])⟩
      have hc := hx.2.2.1
      rw [hno] at hc
      cases hc
    cases hrel : fat32RelPath path.1 with
    | none =>
      simp only [fat32CreateFile, hrel]
      refine ⟨fun _ hx => ?_, fun _ => .of_lookup hdisk (by rw [hres])⟩
      obtain ⟨-, -, -, rel, hmem, -⟩ := hx
      cases hmem
    | some rel =>
      have hiff := create_unchanged_iff hv hlim h₁ hdisk (by rw [hres]) hrel free flags
      refine Iff.trans hiff (not_congr ⟨fun hx => ?_, fun hx => ?_⟩)
      · exact ⟨hgood, hexcl, by simpa using hno, rel, rfl, hx⟩
      · obtain ⟨-, -, -, rel', hmem, hx⟩ := hx
        cases hmem
        exact hx

end

/-- A full descriptor table, without `O_CREAT` and `O_TRUNC`: the open fails and changes nothing. -/
theorem open_unchanged_full_table :
    (fdOpenEx smallVol (mountedOn twoClusters) false (below [65]) 2).1 = .err ∧
      Unchanged smallVol (below [65]) (mountedOn twoClusters)
        (fdOpenEx smallVol (mountedOn twoClusters) false (below [65]) 2).2 := by
  refine ⟨by decide +kernel, (open_unchanged_iff smallVol_shaped le_rfl
    (mountedOn_mounted twoClusters_wf).sound false ⟨below [65], by decide⟩ 2).mpr ?_⟩
  rintro ⟨-, -, hx⟩
  generalize vfsResolve smallVol (mountedOn twoClusters) (below [65]) = res at hx
  obtain ⟨r, fs⟩ := res
  cases r with
  | none => exact absurd hx.1 (by decide)
  | some i => exact absurd hx.2.1 (by decide)

/-- With `O_TRUNC` the file of 1024 bytes is empty when the open has failed. -/
theorem failed_open_empties_file : Mounted smallVol 128 2 (mountedOn twoClusters) ∧
      (fdOpenEx smallVol (mountedOn twoClusters) false (below [65]) 514).1 = .err ∧
      ¬ Unchanged smallVol (below [65]) (mountedOn twoClusters)
        (fdOpenEx smallVol (mountedOn twoClusters) false (below [65]) 514).2 := by
  refine ⟨mountedOn_mounted twoClusters_wf, by decide +kernel, fun h => ?_⟩
  have hafter : (entryAt (fdOpenEx smallVol (mountedOn twoClusters) false (below [65]) 514).2.disk
      (2, 0)).size = 0 := by decide +kernel
  have hbefore : (entryAt twoClusters (2, 0)).size = 1024 := by decide +kernel
  rw [h.disk] at hafter
  have heq := hafter.symm.trans hbefore
  revert heq
  decide

end FermiOs.Fat32
