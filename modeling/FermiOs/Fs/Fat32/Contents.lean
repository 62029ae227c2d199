import FermiOs.Fs.Fat32.Refused

/-!
# What a write leaves in a file

`fd_write` on a file of the volume root: the data, the size in the vnode, the size in the entry on the
disk, and what later reads deliver. The new size is the end of the write, whatever the size was before,
and offset and count are cut to 32 bits on the way; both show in the condition under which the file
ends up as it should.
-/

namespace FermiOs.Fat32
open Library List Function
variable {Fails : Transfer → Prop} {d : Disk} {fs' : Fs} {i : Nat} {l : List Nat} {pd : Priv}
  {slots : List Loc} {x : DirEntry}

/-! ## Contents -/

/-- The chain from `c` on, followed for at most `n` clusters. -/
def chainFrom (v : Vol) (d : Disk) : Nat → Nat → List Nat
  | 0, _ => []
  | n + 1, c => if fatEoc ≤ c then [] else c :: chainFrom v d n (fatVal v d c)

/-- The contents of a file with this first cluster and size. -/
def contents (v : Vol) (d : Disk) (first size : Nat) : List UInt8 :=
  fileBytes v d (chainFrom v d v.entries first) 0 size

section
variable {v : Vol} {lim first : Nat}

lemma chainFrom_eq (hv : v.Shaped) (hlim : lim ≤ v.entries) (hl : ChainAt v d lim first l) :
    chainFrom v d v.entries first = l := by
  have hpath : ∀ (n : Nat) (m : List Nat) (c e : Nat), Path (fatVal v d) c m e → fatEoc ≤ e →
      (∀ x ∈ m, ¬ fatEoc ≤ x) → m.length ≤ n → chainFrom v d n c = m := by
    intro n
    induction n with
    | zero =>
      intro m c e _ _ _ hlen
      exact (length_eq_zero_iff.mp (Nat.le_zero.mp hlen)).symm
    | succ n ih =>
      intro m c e hp he hm hlen
      cases m with
      | nil =>
        obtain rfl := hp
        rw [chainFrom, if_pos he]
      | cons x xs =>
        obtain ⟨rfl, htail⟩ := hp
        rw [chainFrom, if_neg (hm c mem_cons_self), ih xs _ e htail he
          (fun y hy => hm y (mem_cons_of_mem _ hy)) (Nat.le_of_succ_le_succ hlen)]
  obtain ⟨e, he, hp⟩ := hl.path
  exact hpath _ l first e hp he (hl.not_end hv hlim) (hl.length_le hv hlim)

section
variable (start count : Nat)

lemma getElem?_fileBytes (j : Nat) :
    (fileBytes v d l start count)[j]? = if j < count then some (fileByte v d l (start + j)) else none := by
  rw [fileBytes, getElem?_map]
  split_ifs with h
  · rw [getElem?_range h]
    rfl
  · rw [getElem?_eq_none (by rw [length_range]; omega)]
    rfl

@[simp] lemma length_fileBytes : (fileBytes v d l start count).length = count := by
  rw [fileBytes, length_map, length_range]

lemma drop_fileBytes (n : Nat) :
    (fileBytes v d l start count).drop n = fileBytes v d l (start + n) (count - n) := by
  refine ext_getElem? fun j => ?_
  rw [getElem?_drop, getElem?_fileBytes, getElem?_fileBytes, add_assoc]
  by_cases h : n + j < count
  · rw [if_pos h, if_pos (by omega)]
  · rw [if_neg h, if_neg (by omega)]

end
end

/-! ## Files of the volume root -/

/-- Vnode `i` is the file in slot `e` of the root directory, whose chain is `r`; its 8.3 name is `name`
and its size is `size`, in the vnode as on the disk. -/
structure RootFile (v : Vol) (fs : Fs) (lim i : Nat) (e : Loc) (r : List Nat) (name : List UInt8)
    (size : Nat) : Prop where
  node : ∃ node, fs.nodes[i]? = some node ∧ node.type = .reg ∧
    node.priv = some ⟨(entryAt fs.disk e).first, size⟩ ∧ node.size = size
  path : ∃ path, entryPath fs.nodes i = some path ∧ (splitLast path).1 = none ∧
    to83 (splitLast path).2 = name
  root : ChainAt v fs.disk lim v.root r
  found : search (lookupVerdict name) fs.disk (dirSlots v r) = some e
  file : ¬ (entryAt fs.disk e).IsDir
  size : (entryAt fs.disk e).size = size

/-- The state after running a program. -/
lemma Fs.io_spec {α : Type} (fs : Fs) {p : Io α} {Q : α → Disk → Prop} (h : p.Wp Fails fs.disk Q)
    (hdev : ∀ i t, fs.device i t ≠ .ok → Fails t) :
    ∃ a d i, fs.io p = (a, { fs with disk := d, clock := i }) ∧ Q a d :=
  ⟨_, _, _, rfl, h.run hdev fs.clock⟩

lemma TableAnswered.reads {v : Vol} (hv : v.Shaped) {env : Nat → Transfer → Answer}
    (h : TableAnswered v env) : TableReads v fun t => ∃ i, env i t ≠ .ok := by
  rintro c hc ⟨i, hne⟩
  have hlt := fatSector_lt hv hc
  rw [fatSector_eq hv hc] at hlt hne
  exact hne (h i _ (by omega) hlt)

variable {n : Nat} {node : Vnode} {s : Loc} {target : List UInt8}

section
variable {v : Vol} {fs : Fs} {lim size : Nat} {e : Loc} {r : List Nat} {name : List UInt8}

lemma lookupVerdict_hit : lookupVerdict target x = .hit ↔ x 0 ≠ 0 ∧ x.Listed ∧ x.name = target := by
  rw [lookupVerdict, DirEntry.Listed]
  split
  · simp [*]
  split
  · simp [*]
  split
  · simp [*]
  split
  · simp [*]
  · split
    · simp_all
    · simp_all

/-- The entry a lookup finds is one whose size may be set. -/
lemma sizeVerdict_of_lookup (h : lookupVerdict target x = .hit) : sizeVerdict target x = .hit := by
  obtain ⟨h0, hlisted, hname⟩ := lookupVerdict_hit.mp h
  rw [sizeVerdict, if_neg (by rintro (h | h | h); exacts [h0 h, hlisted.1 h, hlisted.2.1 h]),
    if_pos hname]

lemma lookupVerdict_stop : lookupVerdict target x = .stop ↔ x 0 = 0 := by
  rw [lookupVerdict]
  split
  · simp [*]
  split
  · simp [*]
  split
  · simp [*]
  split
  · simp [*]
  · split
    · simp_all
    · simp_all

/-- What a lookup finds is a live slot with that name. -/
lemma live_of_lookup {slots : List Nat}
    (h : search (lookupVerdict target) d (dirSlots v slots) = some s) :
    s ∈ liveSlots v d slots ∧ (entryAt d s).name = target := by
  obtain ⟨before, after, hsplit, hskip, hhit⟩ := search_eq_some.mp h
  obtain ⟨h0, hlisted, hname⟩ := lookupVerdict_hit.mp hhit
  refine ⟨?_, hname⟩
  rw [liveSlots, hsplit, mem_filter, takeWhile_append_of_pos]
  · rw [takeWhile_cons_of_pos (by simpa using h0)]
    exact ⟨mem_append_right _ mem_cons_self, decide_eq_true hlisted⟩
  intro t ht
  have hne : entryAt d t 0 ≠ 0 := fun h0 => by
    have := hskip t ht
    rw [lookupVerdict_stop.mpr h0] at this
    exact Verdict.noConfusion this
  simpa using hne

/-- The first byte of an 8.3 name is one of the name or a blank, in capitals. -/
lemma to83_head_ne {x : List UInt8} {b : UInt8} (hb : b.toNat < 65) (hblank : b ≠ 32)
    (hx : b ∉ x.takeWhile (· ≠ 46)) : (to83 x).head? ≠ some b := by
  have hupper : ∀ c : UInt8, c ≠ b → upper c ≠ b := by
    intro c hc
    rw [upper]
    split_ifs with hrange
    · intro h
      have hlow := UInt8.le_iff_toNat_le.mp hrange.1
      have hval := congrArg UInt8.toNat h
      rw [UInt8.toNat_sub_of_le c 32 (UInt8.le_iff_toNat_le.mpr (by simp at hlow ⊢; omega))] at hval
      simp at hlow hval
      omega
    · exact hc
  rw [to83, padded]
  cases hcs : (x.takeWhile (· ≠ 46)).take 8 with
  | nil => simp [replicate_succ, hblank.symm]
  | cons c cs =>
    have hc : c ≠ b := fun h => hx (h ▸ mem_of_mem_take (hcs ▸ mem_cons_self))
    simp [hupper c hc]

/-- An 8.3 name does not begin with a dot. -/
lemma to83_head (x : List UInt8) : (to83 x).head? ≠ some 46 :=
  to83_head_ne (by decide) (by decide) fun h => by simpa using mem_takeWhile_imp h

lemma head_name (x : DirEntry) : x.name.head? = some (x 0) := rfl

variable (h : RootFile v fs lim i e r name size)
include h

lemma RootFile.live : Live v fs.disk lim e ∧ ¬ (entryAt fs.disk e).IsDot := by
  obtain ⟨path, -, -, rfl⟩ := h.path
  obtain ⟨hlive, hname⟩ := live_of_lookup h.found
  refine ⟨.root h.root hlive, fun hdot => ?_⟩
  apply to83_head (splitLast path).2
  rw [← hname, head_name, hdot]

lemma RootFile.fileOf (hl : ChainAt v fs.disk lim (entryAt fs.disk e).first l) :
    FileOf v fs.disk lim e l :=
  ⟨h.live.1, h.live.2, h.file, hl⟩

lemma RootFile.chain_or_zero (hw : Wf v fs.disk lim) : ((entryAt fs.disk e).first = 0 ∧ size = 0) ∨
      ∃ l, ChainAt v fs.disk lim (entryAt fs.disk e).first l ∧ size ≤ capacity v l := by
  have hsize := hw.size e h.live.1 h.live.2 h.file
  rwa [h.size] at hsize

lemma RootFile.size_le (hv : v.Shaped) (hlim : lim ≤ v.entries) (hw : Wf v fs.disk lim)
    (hl : ChainAt v fs.disk lim (entryAt fs.disk e).first l) : size ≤ capacity v l := by
  rcases h.chain_or_zero hw with ⟨-, h0⟩ | ⟨l', hl', hle⟩
  · omega
  · rwa [hl.unique hv hl' hlim]

end

/-! ## Reading -/

section
variable {v : Vol} (hv : v.Shaped) {lim : Nat} (hlim : lim ≤ v.entries)
include hv hlim

lemma wp_fat32FileRead (hread : TableReads v Fails) (hl : ChainAt v d lim pd.first l)
    (hcap : pd.size ≤ capacity v l) {offset : Nat} (hoff : offset < pd.size) (count : Nat) :
    (fat32FileRead v pd offset count).Wp Fails d fun res d' => d' = d ∧
      (∀ bytes ∈ res, bytes = fileBytes v d l offset (min (pd.size - offset) count)) ∧
      (res = none → (∃ n, Fails (.read n)) ∨ 2 ^ 31 ≤ offset + min (pd.size - offset) count) := by
  rw [fat32FileRead, BlockProg.wp_bind]
  refine (wp_fat32Read hv hread (hl.mono hlim) _).mono fun res d' h => ?_
  obtain ⟨rfl, hbytes, hnone⟩ := h
  cases res with
  | none => exact ⟨rfl, nofun, fun _ => .inl (hnone rfl)⟩
  | some bytes =>
    have heq := hbytes bytes rfl
    rw [min_eq_left (by omega)] at heq
    show _ ∧ _ ∧ _
    rw [heq, length_fileBytes]
    split
    · exact ⟨rfl, nofun, fun _ => .inr (by assumption)⟩
    · refine ⟨rfl, ?_, nofun⟩
      rintro _ ⟨⟩
      rw [drop_fileBytes, zero_add, Nat.add_sub_cancel_left]

/-- **Reading a file.** What `fd_read` delivers are the bytes at the offset, as many as asked for and
there are. It does deliver them if the descriptor allows it, memory is granted, no transfer is refused
and the read ends below 2 GiB. -/
lemma fdRead_spec {fs : Fs} {f : Nat} (count : Nat) {file : File}
    (hfile : fs.files[f]? = some file) (hi : file.vnode = i) (hnode : fs.nodes[i]? = some node)
    (htype : node.type = .reg) (hpriv : node.priv = some pd) (hl : ChainAt v fs.disk lim pd.first l)
    (hcap : pd.size ≤ capacity v l) (hdev : TableAnswered v fs.device) :
    (∀ bytes, (fdRead v fs f count).1 = some bytes →
      bytes = fileBytes v fs.disk l file.offset (min (pd.size - file.offset) count)) ∧
    (file.flags ≠ 1 → fs.grants.headD true = true → (∀ k t, fs.device k t = .ok) →
      file.offset + count < 2 ^ 31 → (fdRead v fs f count).1.isSome = true) := by
  subst hi
  simp only [fdRead, hfile, hnode, htype, hpriv]
  split
  · exact ⟨nofun, fun hflags => absurd (by assumption) hflags⟩
  split_ifs with hend
  · refine ⟨?_, fun _ _ _ _ => rfl⟩
    rintro _ ⟨⟩
    rw [Nat.sub_eq_zero_of_le hend, Nat.zero_min]
    rfl
  simp only [Fs.kmalloc]
  cases hgrant : fs.grants.headD true with
  | false => exact ⟨fun _ h => (by cases h), fun _ h => by cases h⟩
  | true =>
    dsimp only
    obtain ⟨res, d, k, hio, hd, hbytes, hnone⟩ := Fs.io_spec { fs with grants := fs.grants.tail }
        (wp_fat32FileRead hv hlim (hdev.reads hv) hl hcap (not_le.mp hend) count)
        fun i t hne => ⟨i, hne⟩
    rw [hio]
    cases res with
    | none =>
      refine ⟨fun _ h => (by cases h), fun _ _ hok hlt => ?_⟩
      rcases hnone rfl with ⟨n, k, hne⟩ | hbig
      · exact absurd (hok k _) hne
      · omega
    | some bytes =>
      refine ⟨?_, fun _ _ _ _ => rfl⟩
      rintro _ ⟨⟩
      exact hbytes bytes rfl

end

/-! ## Writing -/

lemma search_congr {f : DirEntry → Verdict} {d' : Disk}
    (h : ∀ s ∈ slots, f (entryAt d' s) = f (entryAt d s)) :
    search f d' slots = search f d slots := by
  induction slots with
  | nil => rfl
  | cons s slots ih =>
    rw [search, search, h s mem_cons_self, ih fun t ht => h t (mem_cons_of_mem s ht)]

lemma mem_of_search {f : DirEntry → Verdict} (h : search f d slots = some s) : s ∈ slots := by
  obtain ⟨before, after, rfl, -⟩ := search_eq_some.mp h
  simp

lemma getElem?_setSize {nodes : List Vnode} (h : nodes[i]? = some node) (n : Nat) :
    (setSize nodes i n)[i]? =
      some { node with size := n, priv := node.priv.map fun pd => { pd with size := n } } := by
  rw [setSize, getElem?_modify_eq, h]
  rfl

section
variable {v : Vol} (hv : v.Shaped) {lim : Nat} (hlim : lim ≤ v.entries) {fs : Fs} {f size : Nat}
  {file : File} {e : Loc} {r : List Nat} {name : List UInt8} {data : List UInt8}

/-- The state a successful write ends in: `stop` is the end of the written data, `t` the slot whose
size is rewritten. -/
structure WriteEnds (v : Vol) (fs : Fs) (f : Nat) (file : File) (e : Loc) (r l : List Nat)
    (name data : List UInt8) (new : List Nat) (stop : Nat) (t : Loc) (d : Disk) (fs' : Fs) : Prop where
  written : Written v fs.disk (entryAt fs.disk e).first l (u32 file.offset)
    (data.take (u32 data.length)) (some stop) d new
  slot : search (sizeVerdict name) fs.disk (dirSlots v r) = some t
  disk : fs'.disk = putSize d t stop
  nodes : fs'.nodes = setSize fs.nodes file.vnode stop
  files : fs'.files = fs.files.set f { file with offset := file.offset + data.length }
  device : fs'.device = fs.device
  grants : fs'.grants = fs.grants

include hv hlim

lemma fdWrite_ends (hw : Wf v fs.disk lim) (h : RootFile v fs lim i e r name size)
    (hfile : fs.files[f]? = some file) (hi : file.vnode = i)
    (hl : ChainAt v fs.disk lim (entryAt fs.disk e).first l) (hdev : TableAnswered v fs.device)
    (hdata : data ≠ []) (hok : (fdWrite v fs f data).1 = .ok n) :
    file.flags ≠ 0 ∧ ∃ new stop t d, WriteEnds v fs f file e r l name data new stop t d
      (fdWrite v fs f data).2 := by
  subst hi
  obtain ⟨node, hnode, htype, hpriv, -⟩ := h.node
  obtain ⟨path, hpath, hsplit, hname⟩ := h.path
  have hf := h.fileOf hl
  obtain ⟨res, d', k, hio, new, hres⟩ := fs.io_spec
    (wp_fat32FileWrite hv hlim (hdev.reads hv) hw hf h.root (some path) file.offset data)
    fun i t hne => ⟨i, hne⟩
  simp only [fdWrite, hfile, hnode, htype, hpriv, hpath, if_neg hdata] at hok ⊢
  split at hok
  · cases hok
  rename_i hflags
  refine ⟨hflags, ?_⟩
  rw [if_neg hflags]
  rw [hio] at hok ⊢
  cases hres with
  | failed _ hne =>
    cases res with
    | ok m => exact absurd rfl (hne m)
    | err => cases hok
    | fault => cases hok
  | @sized stop d path' t hwr hrel _ ht hn =>
    cases hrel
    cases res with
    | err => cases hok
    | fault => cases hok
    | ok m =>
      obtain rfl := hn m rfl
      refine ⟨new, m, t, d, hwr, ?_, rfl, rfl, rfl, rfl, rfl⟩
      have ho : Owns v fs.disk lim .root r := ⟨trivial, h.root⟩
      rw [← hname, ← ht]
      refine (search_congr fun s hs => ?_).symm
      rw [entryAt, entryAt, dir_sector_same hv hlim hw hf hwr.grown.fresh hwr.other
        (o := .root) trivial ho hs]

section
variable {new : List Nat} {stop : Nat} {t : Loc} (hw : Wf v fs.disk lim)
  (h : RootFile v fs lim i e r name size) (hf : FileOf v fs.disk lim e l)
  (hwe : WriteEnds v fs f file e r l name data new stop t d fs')
include hwe

/-- The slot that is rewritten lies in no sector of the file. -/
lemma WriteEnds.slot_apart (hw : Wf v fs.disk lim) (hr : ChainAt v fs.disk lim v.root r)
    (hf : FileOf v fs.disk lim e l) : ∀ c ∈ l ++ new, ¬ InCluster v c t.1 := by
  obtain ⟨⟨c, hc, hin⟩, -⟩ := mem_dirSlots.mp (mem_of_search hwe.slot)
  have hrange := hr.range c hc
  have hlt := lt_of_lt_of_le hrange.2 hlim
  have ho : Owns v fs.disk lim .root r := ⟨trivial, hr⟩
  intro c' hc' hin'
  rcases mem_append.mp hc' with hmem | hmem
  · have hrange' := hf.chain.range c' hmem
    obtain rfl := hin.inj hv hin' hrange.1 hlt hrange'.1 (lt_of_lt_of_le hrange'.2 hlim)
    exact hw.apart .root (.entry e) r l ho hf.owns Owner.noConfusion c hc hmem
  · obtain ⟨h2, hlt', hfree⟩ := hwe.written.grown.fresh c' hmem
    obtain rfl := hin.inj hv hin' hrange.1 hlt h2 hlt'
    exact hr.used hc hfree

lemma WriteEnds.slot_data (hr : ChainAt v fs.disk lim v.root r) : v.dataStart ≤ t.1 :=
  search_data hv (hr.mono hlim) hwe.slot

lemma WriteEnds.chain (hr : ChainAt v fs.disk lim v.root r) :
    ChainAt v fs'.disk v.entries (entryAt fs.disk e).first (l ++ new) := by
  rw [hwe.disk]
  exact hwe.written.chain.congr fun c hc =>
    fatVal_update hv (hwe.written.chain.range c hc).2 (hwe.slot_data hv hlim hr) _

lemma WriteEnds.fileByte_eq (hw : Wf v fs.disk lim) (hr : ChainAt v fs.disk lim v.root r)
    (hf : FileOf v fs.disk lim e l) {p : Nat} (hp : p < capacity v (l ++ new)) :
    fileByte v fs'.disk (l ++ new) p = fileByte v d (l ++ new) p := by
  obtain ⟨c, hc, hin⟩ := fileSector_inCluster hv (lt_capacity.mp hp)
  have hne : fileSector v (l ++ new) (p / 512) ≠ t.1 := fun heq =>
    hwe.slot_apart hv hlim hw hr hf c hc (heq ▸ hin)
  rw [fileByte, fileByte, hwe.disk, putSize, update_of_ne hne]

/-- Entries keep all but their size, and that too unless they are in the slot. -/
lemma WriteEnds.entry (hw : Wf v fs.disk lim) (hf : FileOf v fs.disk lim e l)
    (hs : Live v fs.disk lim s) :
    SameEntry (entryAt fs.disk s) (entryAt fs'.disk s) ∧
      (entryAt fs'.disk s).size = if s = t then u32 stop else (entryAt fs.disk s).size := by
  have hsame := entry_same hv hlim hw hf hwe.written.grown.fresh hwe.written.other hs
  rw [hwe.disk, ← hsame]
  refine ⟨sameEntry_putSize d t stop s, ?_⟩
  split_ifs with heq
  · rw [heq]
    exact size_putSize d t stop
  · exact size_congr fun k hk => entryAt_putSize_of_ne heq hk

end
end

/-! ## The effect of a write -/

/-- What position `p` should hold after `data` was written at `o` over `old`. -/
def overwrite (old : List UInt8) (o : Nat) (data : List UInt8) (p : Nat) : Option UInt8 :=
  if o ≤ p ∧ p < o + data.length then data[p - o]? else old[p]?

/-- Every later read of vnode `i` delivers bytes of a file of this size, those of `want` where it says
something; and it does deliver them unless the descriptor, the allocator, the device or the 2 GiB bound
is in the way. -/
def ReadsBack (v : Vol) (disk : Disk) (nodes : List Vnode) (i size : Nat)
    (want : Nat → Option UInt8) : Prop :=
  ∀ (fs : Fs) (f count : Nat) (file : File), fs.disk = disk → fs.nodes = nodes →
    TableAnswered v fs.device → fs.files[f]? = some file → file.vnode = i →
    (∀ bytes, (fdRead v fs f count).1 = some bytes →
      bytes.length = min (size - file.offset) count ∧
        ∀ j b, j < bytes.length → want (file.offset + j) = some b → bytes[j]? = some b) ∧
    (file.flags ≠ 1 → fs.grants.headD true = true → (∀ k t, fs.device k t = .ok) →
      file.offset + count < 2 ^ 31 → (fdRead v fs f count).1.isSome = true)

/-- The file in vnode `i` and slot `e`, which had the contents `old`, is as it should be after `data`
was written at `o`. -/
structure Overwritten (v : Vol) (fs' : Fs) (i : Nat) (e : Loc) (old : List UInt8) (o : Nat)
    (data : List UInt8) : Prop where
  fits : o + data.length < 2 ^ 32
  vnode : ∃ node, fs'.nodes[i]? = some node ∧ node.size = max old.length (o + data.length) ∧
    node.priv.map Priv.size = some (max old.length (o + data.length))
  entry : (entryAt fs'.disk e).size = max old.length (o + data.length)
  reads : ReadsBack v fs'.disk fs'.nodes i (max old.length (o + data.length)) (overwrite old o data)

section
variable {v : Vol} (hv : v.Shaped) {lim : Nat} (hlim : lim ≤ v.entries) {fs : Fs} {f size : Nat}
  {file : File} {e : Loc} {r : List Nat} {name : List UInt8} {data : List UInt8}
include hv hlim

/-- The effect of a successful write whose offset and count do not exceed 32 bits. -/
lemma WriteEnds.effect {new : List Nat} {stop : Nat} {t : Loc} (hw : Wf v fs.disk lim)
    (hr : ChainAt v fs.disk lim v.root r) (hf : FileOf v fs.disk lim e l)
    (hwe : WriteEnds v fs f file e r l name data new stop t d fs') (hdata : data ≠ [])
    (hfit : file.offset + data.length < 2 ^ 32) :
    stop = file.offset + data.length ∧ stop ≤ capacity v (l ++ new) ∧
      ∀ p, p < capacity v (l ++ new) → fileByte v fs'.disk (l ++ new) p =
        if file.offset ≤ p ∧ p < file.offset + data.length then data.getD (p - file.offset) 0
        else fileByte v fs.disk (l ++ new) p := by
  have hwr := hwe.written
  have hoff : u32 file.offset = file.offset := Nat.mod_eq_of_lt (by omega)
  have hlen : u32 data.length = data.length := Nat.mod_eq_of_lt (by omega)
  rw [hoff, hlen, take_length] at hwr
  obtain ⟨hstop, hput⟩ := hwr.put stop rfl hfit
  refine ⟨hstop, hwr.inside stop rfl hdata, fun p hp => ?_⟩
  rw [hwe.fileByte_eq hv hlim hw hr hf hp, hput.bytes p hp]

/-- What reads deliver after a write, if the file's size is in the vnode and its chain holds it. -/
lemma readsBack_of_bytes {first o : Nat} {old : List UInt8} {m : List Nat}
    (hnode : fs'.nodes[i]? = some node) (htype : node.type = .reg)
    (hpriv : node.priv = some ⟨first, n⟩) (hm : ChainAt v fs'.disk lim first m)
    (hcap : n ≤ capacity v m)
    (hbytes : ∀ p, p < n → ∀ b, overwrite old o data p = some b → fileByte v fs'.disk m p = b) :
    ReadsBack v fs'.disk fs'.nodes i n (overwrite old o data) := by
  intro fs f count file hdisk hnodes hdev hfile hi
  rw [← hnodes] at hnode
  rw [← hdisk] at hm hbytes
  obtain ⟨hread, hsome⟩ := fdRead_spec hv hlim count hfile hi hnode htype hpriv hm hcap hdev
  refine ⟨fun bytes hres => ?_, hsome⟩
  obtain rfl := hread bytes hres
  rw [length_fileBytes]
  refine ⟨rfl, fun j b hj hwant => ?_⟩
  rw [getElem?_fileBytes, if_pos hj, hbytes _ _ b hwant]
  dsimp only at hj
  omega

omit hv hlim in
/-- A file that could be written has a chain. -/
lemma exists_chain_of_ok (hw : Wf v fs.disk lim) (h : RootFile v fs lim i e r name size)
    (hfile : fs.files[f]? = some file) (hi : file.vnode = i) (hdata : data ≠ [])
    (hok : (fdWrite v fs f data).1 = .ok n) :
    ∃ l, ChainAt v fs.disk lim (entryAt fs.disk e).first l := by
  subst hi
  obtain ⟨node, hnode, htype, hpriv, -⟩ := h.node
  rcases h.chain_or_zero hw with ⟨h0, -⟩ | ⟨l, hl, -⟩
  · simp only [fdWrite, hfile, hnode, htype, hpriv, if_neg hdata, h0, fat32FileWrite_first_zero] at hok
    split at hok
    · cases hok
    · cases hok
  · exact ⟨l, hl⟩

/-- **A write to a file of the volume root.** A write that returns success does what it should exactly
if it ends at or behind the end of the file and within 32 bits, and no volume label of the same name
takes the new size in the entry's place. -/
theorem fdWrite_overwrites_iff (hw : Wf v fs.disk lim) (h : RootFile v fs lim i e r name size)
    (hfile : fs.files[f]? = some file) (hi : file.vnode = i) (hdev : TableAnswered v fs.device)
    (hdata : data ≠ []) {n : Nat} (hok : (fdWrite v fs f data).1 = .ok n) :
    Overwritten v (fdWrite v fs f data).2 i e
        (contents v fs.disk (entryAt fs.disk e).first size) file.offset data ↔
      size ≤ file.offset + data.length ∧ file.offset + data.length < 2 ^ 32 ∧
        (search (sizeVerdict name) fs.disk (dirSlots v r) = some e ∨
          file.offset + data.length = size) := by
  obtain ⟨l, hl⟩ := exists_chain_of_ok hw h hfile hi hdata hok
  have hf := h.fileOf hl
  obtain ⟨-, new, stop, t, d, hwe⟩ := fdWrite_ends hv hlim hw h hfile hi hl hdev hdata hok
  obtain ⟨node, hnode, htype, hpriv, -⟩ := h.node
  have hold : contents v fs.disk (entryAt fs.disk e).first size = fileBytes v fs.disk l 0 size := by
    rw [contents, chainFrom_eq hv hlim hl]
  have hnode' := getElem?_setSize hnode stop
  rw [← hi, ← hwe.nodes, hi] at hnode'
  have hsize := (hwe.entry hv hlim hw hf hf.live).2
  rw [h.size] at hsize
  rw [hold]
  constructor
  · -- the vnode has the end of the write as its size
    intro hov
    obtain ⟨hfit, ⟨node', hn', hns, -⟩, hentry, -⟩ := hov
    rw [length_fileBytes] at hns hentry
    have hstop := (hwe.effect hv hlim hw h.root hf hdata hfit).1
    obtain rfl := Option.mem_unique hnode' hn'
    refine ⟨by dsimp only at hns; omega, hfit, ?_⟩
    by_cases heq : e = t
    · exact Or.inl (heq ▸ hwe.slot)
    · rw [hsize, if_neg heq] at hentry
      dsimp only at hns
      exact Or.inr (by omega)
  rintro ⟨hle, hfit, hslot⟩
  obtain ⟨hstop, hcap, hbytes⟩ := hwe.effect hv hlim hw h.root hf hdata hfit
  have hmax : max size (file.offset + data.length) = stop := by omega
  have hu : u32 stop = stop := Nat.mod_eq_of_lt (by omega)
  refine ⟨hfit, ⟨_, hnode', ?_, ?_⟩, ?_, ?_⟩
  · rw [length_fileBytes, hmax]
  · rw [length_fileBytes, hmax, hpriv]
    rfl
  · rw [length_fileBytes, hmax, hsize]
    split
    · exact hu
    · rename_i hne
      rcases hslot with hslot | heq
      · exact absurd (Option.mem_unique hslot hwe.slot) hne
      · omega
  rw [length_fileBytes, hmax]
  have hm := hwe.chain hv hlim h.root
  refine readsBack_of_bytes hv (le_refl _) hnode' htype (by rw [hpriv]; rfl) hm hcap ?_
  intro p hp b hwant
  have hpc : p < capacity v (l ++ new) := by omega
  rw [hbytes p hpc]
  rw [overwrite] at hwant
  split at hwant
  · rename_i hin
    rw [if_pos hin, getD_eq_getElem?_getD, hwant, Option.getD_some]
  rename_i hout
  rw [if_neg hout]
  rw [getElem?_fileBytes] at hwant
  split at hwant
  · rename_i hps
    have hcap' : p < capacity v l := lt_of_lt_of_le hps (h.size_le hv hlim hw hl)
    rw [fileByte_append hcap', ← Option.some.inj hwant, zero_add]
  · cases hwant

end

/-! ## The disk behind a write -/

section
variable {v : Vol} {d' : Disk} {first offset e : Nat} {new : List Nat} {data : List UInt8}

/-- A successful write takes as many clusters as its end needs. -/
lemma Written.length_eq (hv : v.Shaped) (hfit : offset + data.length < 2 ^ 32) (hdata : data ≠ [])
    (h : Written v d first l offset data (some e) d' new) :
    (l ++ new).length = max l.length ((offset + data.length - 1) / v.bytesPerCluster + 1) := by
  have hpos := length_pos_iff.mpr hdata
  have hin := h.inside e rfl hdata
  rw [(h.put e rfl hfit).1, capacity] at hin
  have hneed : (offset + data.length - 1) / v.bytesPerCluster < (l ++ new).length :=
    (Nat.div_lt_iff_lt_mul (bytesPerCluster_pos hv)).mpr (by omega)
  have hsize := h.size
  have hlen : l.length ≤ (l ++ new).length := by simp
  omega

/-- The table entries of other clusters keep all their bits. -/
lemma Written.fatRaw_eq (h : Written v d first l offset data (some e) d' new) {c : Nat}
    (hc : c < v.entries) (hout : c ∉ l ++ new) : fatRaw v d' c = fatRaw v d c := by
  rw [mem_append, not_or] at hout
  have hval : fatVal v d' c = fatVal v d c := by
    rcases Nat.lt_or_ge c 2 with h2 | h2
    · exact h.spared.first c h2
    · by_cases h0 : fatVal v d c = 0
      · by_contra hne
        exact hout.2 (h.tidy e rfl c h2 hc h0 (h0 ▸ hne))
      · exact h.grown.kept c h2 hc h0 fun hlast => hout.1 (mem_of_getLast? hlast)
  have hup := h.spared.upper c hc
  rw [fatVal, fatVal, ← fatRaw, ← fatRaw] at hval
  omega

/-- **What a successful write does to the disk.** The bytes of the chain from `offset` on are the
data, its other bytes are as before, the chain is longer by the clusters the end of the write needs,
and no other sector or table entry differs. -/
theorem fat32WriteAt_disk (hv : v.Shaped) (hl : ChainAt v d v.entries first l)
    (hfit : offset + data.length < 2 ^ 32)
    (hok : (fat32WriteAt v first offset data).exec d = (some e, d')) :
    ∃ new, ChainAt v d' v.entries first (l ++ new) ∧
      (l ++ new).length = max l.length
        (if data = [] then 0 else (offset + data.length - 1) / v.bytesPerCluster + 1) ∧
      fileBytes v d' (l ++ new) offset data.length = data ∧
      (∀ p, p < capacity v l → ¬ (offset ≤ p ∧ p < offset + data.length) →
        fileByte v d' (l ++ new) p = fileByte v d l p) ∧
      (∀ n, v.dataStart ≤ n → (∀ c ∈ l ++ new, ¬ InCluster v c n) → d' n = d n) ∧
      (∀ n, n < v.fatStart → d' n = d n) ∧
      ∀ c, c < v.entries → c ∉ l ++ new → fatRaw v d' c = fatRaw v d c := by
  by_cases hdata : data = []
  · have hfirst := (hl.range first hl.first_mem).1
    subst hdata
    rw [fat32WriteAt, if_neg (by omega)] at hok
    obtain ⟨-, rfl⟩ := Prod.mk.inj hok
    rw [if_pos rfl]
    refine ⟨[], ?_, ?_, rfl, fun p _ _ => ?_, fun _ _ _ => rfl, fun _ _ => rfl, fun _ _ _ => rfl⟩
    · rwa [append_nil]
    · rw [append_nil, Nat.max_zero]
    · rw [append_nil]
  have hwp := BlockProg.wp_exec.mp (wp_fat32WriteAt hv (fun _ _ h => h) hl offset data)
  rw [hok] at hwp
  obtain ⟨new, h⟩ := hwp
  obtain ⟨hstop, hput⟩ := h.put e rfl hfit
  have hin := h.inside e rfl hdata
  refine ⟨new, h.chain, ?_, ?_, fun p hp hout => ?_, h.other, h.spared.front,
    fun c hc => h.fatRaw_eq hc⟩
  · rw [if_neg hdata]
    exact h.length_eq hv hfit hdata
  · refine ext_getElem? fun j => ?_
    rw [getElem?_fileBytes]
    split
    · rename_i hj
      rw [hput.bytes _ (by omega), if_pos (by omega), Nat.add_sub_cancel_left,
        getElem?_eq_getElem hj, getD_eq_getElem _ _ hj]
    · rename_i hj
      exact (getElem?_eq_none (by omega)).symm
  · have hcap : capacity v l ≤ capacity v (l ++ new) := by
      exact Nat.mul_le_mul_right _ (by simp)
    rw [hput.bytes p (by omega), if_neg hout, fileByte_append hp]

end

/-! ## On the small volume -/

/-- The vnodes after `/mnt/fat32/A` was resolved. -/
def smallNodes (size : Nat) : List Vnode :=
  [⟨[47], .dir, none, none, 0⟩, ⟨[109, 110, 116], .dir, some 0, none, 0⟩,
    ⟨[102, 97, 116, 51, 50], .dir, some 1, some ⟨2, 0⟩, 0⟩, ⟨[65], .reg, some 2, some ⟨3, size⟩, size⟩]

/-- The file of two clusters, open for reading and writing at an offset. -/
def openAt (offset : Nat) : Fs :=
  ⟨twoClusters, fun _ _ => .ok, 0, smallNodes 1024, [⟨3, offset, 2⟩], []⟩

lemma openAt_rootFile (offset : Nat) :
    RootFile smallVol (openAt offset) 128 3 (2, 0) [2] (to83 [65]) 1024 where
  node := ⟨_, rfl, rfl, by
    have hfirst : (entryAt twoClusters (2, 0)).first = 3 := by decide +kernel
    exact congrArg (fun c => some (Priv.mk c 1024)) hfirst.symm, rfl⟩
  path := ⟨[65], show entryPath (smallNodes 1024) 3 = some [65] by decide +kernel, rfl, rfl⟩
  root := twoClusters_flat.chain
  found := show search (lookupVerdict (to83 [65])) twoClusters (dirSlots smallVol [2]) = some (2, 0) by
    decide +kernel
  file := twoClusters_file.file
  size := show (entryAt twoClusters (2, 0)).size = 1024 by decide +kernel

theorem fdWrite_overwrites_append :
    Overwritten smallVol (fdWrite smallVol (openAt 1024) 0 [7]).2 3 (2, 0)
      (contents smallVol twoClusters (entryAt twoClusters (2, 0)).first 1024) 1024 [7] :=
  (fdWrite_overwrites_iff smallVol_shaped le_rfl twoClusters_wf (openAt_rootFile 1024)
    (show (openAt 1024).files[0]? = some ⟨3, 1024, 2⟩ from rfl) rfl (fun _ _ _ _ => rfl) (by decide)
    (show (fdWrite smallVol (openAt 1024) 0 [7]).1 = .ok 1 by decide +kernel)).mpr
    ⟨by decide, by decide, .inl (show
      search (sizeVerdict (to83 [65])) twoClusters (dirSlots smallVol [2]) = some (2, 0) by
        decide +kernel)⟩

/-- A byte behind the end of a file of two clusters takes a third one. -/
theorem fat32WriteAt_disk_append :
    ((fat32WriteAt smallVol 3 1024 [7]).exec twoClusters).1 = some 1025 ∧
      ∃ new, ChainAt smallVol ((fat32WriteAt smallVol 3 1024 [7]).exec twoClusters).2 smallVol.entries 3
        ([3, 4] ++ new) ∧ new.length = 1 := by
  have hres : ((fat32WriteAt smallVol 3 1024 [7]).exec twoClusters).1 = some 1025 := by decide +kernel
  have hfirst : (entryAt twoClusters (2, 0)).first = 3 := by decide +kernel
  have hl := twoClusters_file.chain
  rw [hfirst] at hl
  refine ⟨hres, ?_⟩
  obtain ⟨new, hchain, hlen, -⟩ := fat32WriteAt_disk smallVol_shaped hl
    (show 1024 + [(7 : UInt8)].length < 2 ^ 32 by decide) (Prod.ext hres rfl)
  refine ⟨new, hchain, ?_⟩
  rw [length_append] at hlen
  have hmax : max [3, 4].length ((1024 + 1 - 1) / smallVol.bytesPerCluster + 1) = 3 := by decide
  exact Nat.add_left_cancel (hlen.trans hmax)

/-- One byte written at the start of a file of 1024 bytes: the file has one byte afterwards. -/
theorem write_inside_shrinks : Wf smallVol (openAt 0).disk 128 ∧
      RootFile smallVol (openAt 0) 128 3 (2, 0) [2] (to83 [65]) 1024 ∧
      (fdWrite smallVol (openAt 0) 0 [7]).1 = .ok 1 ∧
      ¬ Overwritten smallVol (fdWrite smallVol (openAt 0) 0 [7]).2 3 (2, 0)
        (contents smallVol twoClusters (entryAt twoClusters (2, 0)).first 1024) 0 [7] := by
  refine ⟨twoClusters_wf, openAt_rootFile 0, by decide +kernel, fun h => ?_⟩
  obtain ⟨node, hnode, hsize, -⟩ := h.vnode
  have hone : ((fdWrite smallVol (openAt 0) 0 [7]).2.nodes[3]?.map Vnode.size) = some 1 := by
    decide +kernel
  rw [hnode, Option.map_some, hsize, contents, length_fileBytes] at hone
  revert hone
  decide

end FermiOs.Fat32
