import FermiOs.Fs.Fat32.FailedOpen
import FermiOs.Fs.Fat32.Spellings

/-!
# Calls on one file

What each call leaves of one file of the volume: its vnode, its chain and the bytes in the chain. A
write puts a first part of its data at the offset, and all of it if the size changes; every other call
leaves the bytes alone. Nothing here clears a byte: what a chain holds behind the end of the file, and
what a free cluster holds when it is taken, stays.
-/

namespace FermiOs.Fat32
open Library List Function

/-- Vnode `i` is a file of the volume with this first cluster and size. -/
def Fs.FileAt (fs : Fs) (i first size : Nat) : Prop :=
  ∃ node, fs.nodes[i]? = some node ∧ node.type = .reg ∧ node.priv = some ⟨first, size⟩

instance (fs : Fs) (i first size : Nat) : Decidable (fs.FileAt i first size) :=
  inferInstanceAs (Decidable (∃ node ∈ fs.nodes[i]?, _ ∧ _))

/-- Description `f` is open on vnode `i`. -/
def Fs.OpenOn (fs : Fs) (f i : Nat) : Prop := ∃ file ∈ fs.files[f]?, file.vnode = i
deriving Decidable

/-- A call leaves the file in vnode `i` with this size, its chain grown by free clusters and in the
chain the bytes of before, with `data` put at `start`. -/
structure FileStep (v : Vol) (fs : Fs) (i first : Nat) (l new : List Nat) (start : Nat)
    (data : List UInt8) (size : Nat) (fs' : Fs) : Prop where
  node : fs'.FileAt i first size
  chain : ChainAt v fs'.disk v.entries first (l ++ new)
  fresh : ∀ c ∈ new, 2 ≤ c ∧ c < v.entries ∧ fatVal v fs.disk c = 0
  bytes : ∀ p, p < capacity v (l ++ new) → fileByte v fs'.disk (l ++ new) p =
    if start ≤ p ∧ p < start + data.length then data.getD (p - start) 0
    else fileByte v fs.disk (l ++ new) p

section
variable {fs fs' : Fs} {i first size n : Nat} (h : fs.FileAt i first size)
include h

lemma Fs.FileAt.unique {first' : Nat} (h' : fs.FileAt i first' n) : first = first' ∧ size = n := by
  obtain ⟨node, hnode, -, hpriv⟩ := h
  obtain ⟨node', hnode', -, hpriv'⟩ := h'
  obtain rfl := Option.mem_unique hnode hnode'
  cases Option.mem_unique hpriv hpriv'
  exact ⟨rfl, rfl⟩

lemma Fs.FileAt.setSize (hnodes : fs'.nodes = setSize fs.nodes i n) : fs'.FileAt i first n := by
  obtain ⟨node, hnode, htype, hpriv⟩ := h
  refine ⟨_, (congrArg (·[i]?) hnodes).trans (getElem?_setSize hnode n), htype, ?_⟩
  rw [hpriv]
  rfl

lemma Fs.FileAt.of_prefix (hnodes : fs.nodes <+: fs'.nodes) : fs'.FileAt i first size := by
  obtain ⟨node, hnode, hrest⟩ := h
  obtain ⟨xs, hxs⟩ := hnodes
  refine ⟨node, ?_, hrest⟩
  rw [← hxs, getElem?_append_left (List.getElem?_eq_some_iff.mp hnode).1, hnode]

lemma Fs.FileAt.of_nodes (hnodes : fs'.nodes = fs.nodes) :
    fs'.FileAt i first size := h.of_prefix (by rw [hnodes])

/-- Vnodes of one shape are files with the same first cluster. -/
lemma Fs.FileAt.of_shape
    (hshape : shapes fs'.nodes i = shapes fs.nodes i) : ∃ n, fs'.FileAt i first n := by
  obtain ⟨node, hnode, htype, hpriv⟩ := h
  rw [shapes, shapes, hnode] at hshape
  obtain ⟨node', hnode', hs⟩ := Option.map_eq_some_iff.mp hshape
  have htype' : node'.type = .reg := (congrArg Shape.type hs).trans htype
  have hfirst : node'.priv.map Priv.first = node.priv.map Priv.first := congrArg Shape.first hs
  rw [hpriv] at hfirst
  obtain ⟨⟨c, n⟩, hpriv', hc⟩ := Option.map_eq_some_iff.mp hfirst
  obtain rfl : c = first := hc
  exact ⟨n, node', hnode', htype', hpriv'⟩

end

section
variable {v : Vol} (hv : v.Shaped) {m : Nat} {fs : Fs} {i first size : Nat} {l : List Nat}

/-- The chain of a file holds its size, or it has none. -/
lemma Sound.chain_or_zero (h : Sound v v.entries m fs) (hat : fs.FileAt i first size) :
    (first = 0 ∧ size = 0) ∨ ∃ l, ChainAt v fs.disk v.entries first l ∧ size ≤ capacity v l := by
  obtain ⟨node, hnode, htype, hpriv⟩ := hat
  exact h.sized i node _ hnode hpriv htype

lemma FileStep.same (hat : fs.FileAt i first size) (hl : ChainAt v fs.disk v.entries first l)
    {fs' : Fs} (hdisk : fs'.disk = fs.disk) (hnodes : fs.nodes <+: fs'.nodes) (start : Nat) :
    FileStep v fs i first l [] start [] size fs' where
  node := hat.of_prefix hnodes
  chain := by rwa [append_nil, hdisk]
  fresh := forall_mem_nil _
  bytes := by
    intro p _
    rw [if_neg (by simp only [length_nil]; omega), hdisk]

include hv

section
variable (h : Sound v v.entries m fs) (hat : fs.FileAt i first size)
  (hl : ChainAt v fs.disk v.entries first l)
include h hat hl

lemma Sound.size_le : size ≤ capacity v l := by
  rcases h.chain_or_zero hat with ⟨-, h0⟩ | ⟨l', hl', hle⟩
  · omega
  · rwa [hl.unique hv hl' le_rfl]

/-- A size stored in the root directory is in no sector of a file. -/
lemma putSize_file {r : List Nat} (hr : ChainAt v fs.disk v.entries v.root r)
    {s : Loc} (hs : s ∈ dirSlots v r) (n : Nat) :
    ChainAt v (putSize fs.disk s n) v.entries first l ∧ ∀ p, p < capacity v l →
      fileByte v (putSize fs.disk s n) l p = fileByte v fs.disk l p := by
  obtain ⟨node, hnode, htype, hpriv⟩ := hat
  obtain ⟨_, _, _, _, e, _, _, _, hfile⟩ := h.fileOf hnode hpriv htype
  have hf := hfile l hl
  have ho : Owns v fs.disk v.entries .root r := ⟨trivial, hr⟩
  refine ⟨hl.congr fun c hc => fatVal_update hv (hl.range c hc).2 (slot_data hv le_rfl hr hs) _,
    fun p hp => ?_⟩
  obtain ⟨c, hc, hin⟩ := fileSector_inCluster hv (lt_capacity.mp hp)
  obtain ⟨⟨c', hc', hin'⟩, -⟩ := mem_dirSlots.mp hs
  have hne : fileSector v l (p / 512) ≠ s.1 := by
    intro heq
    rw [heq] at hin
    have hrange := hl.range c hc
    have hrange' := hr.range c' hc'
    obtain rfl := hin.inj hv hin' hrange.1 hrange.2 hrange'.1 hrange'.2
    exact h.wf.apart .root (.entry e) r l ho hf.owns Owner.noConfusion c hc' hc
  rw [fileByte, fileByte, putSize, update_of_ne hne]

/-- **A write** puts a first part of its data at the offset. Either the size stays, or all of the data
is put and its end is the new size. -/
lemma fdWrite_file {f : Nat} {file : File} (hfile : fs.files[f]? = some file)
    (hi : file.vnode = i) {data : List UInt8} (hfit : file.offset + data.length < 2 ^ 32) :
    ∃ new k n, FileStep v fs i first l new file.offset (data.take k) n (fdWrite v fs f data).2 ∧
      (n = size ∧ (∀ c, (fdWrite v fs f data).1 = .ok c → data = []) ∨
        data ≠ [] ∧ n = file.offset + data.length ∧ data.length ≤ k ∧ n ≤ capacity v (l ++ new)) := by
  subst hi
  rcases fdWrite_cases v fs f data with
    ⟨r, hr, heq⟩ | ⟨file', node, pd, hfile', hnode, htype, hpriv, -, hdata, heq⟩
  · rw [heq]
    refine ⟨[], 0, size, .same hat hl rfl prefix_rfl _, .inl ⟨rfl, fun c hc => ?_⟩⟩
    rcases hr with rfl | ⟨hnil, -⟩
    · cases hc
    · exact hnil
  obtain rfl := Option.mem_unique hfile hfile'
  have hat' := hat
  obtain ⟨node', hnode', -, hpriv'⟩ := hat'
  obtain rfl := Option.mem_unique hnode hnode'
  obtain rfl := Option.mem_unique hpriv hpriv'
  obtain ⟨r, -, hr⟩ := h.wf.dir_owns (o := .root) trivial trivial
  obtain ⟨_, _, _, _, e, _, _, hfirst, hfileOf⟩ := h.fileOf hnode hpriv htype
  have hwp := wp_fat32FileWrite hv le_rfl (tableReads_none v) h.wf (hfileOf l hl) hr
    (entryPath fs.nodes file.vnode) file.offset data
  rw [← hfirst] at hwp
  obtain ⟨res, d, k, hio, new, hw⟩ := fs.io_spec hwp fun i t hne => absurd (h.answers i t) hne
  have hoff : u32 file.offset = file.offset := Nat.mod_eq_of_lt (by omega)
  have hlen : u32 data.length = data.length := Nat.mod_eq_of_lt (by omega)
  rw [heq, hio]
  generalize hsize : (⟨first, size⟩ : Priv) = pd at *
  cases hw with
  | failed hw hres =>
    rw [hoff, hlen, take_length, ← hsize] at hw
    obtain ⟨j, hput⟩ := hw.part hfit
    have hstep : FileStep v fs file.vnode first l new file.offset (data.take j) size
        { fs with disk := d, clock := k } := ⟨hat, hw.chain, hw.grown.fresh, hput.bytes⟩
    refine ⟨new, j, size, ?_, .inl ⟨rfl, fun c hc => ?_⟩⟩
    · cases res with
      | ok c => exact absurd rfl (hres c)
      | err => exact hstep
      | fault => exact hstep
    · cases res with
      | ok c => exact absurd rfl (hres c)
      | err => cases hc
      | fault => cases hc
  | @sized stop d1 path s hw hrel hroot hs hres =>
    rw [hoff, hlen, take_length, ← hsize] at hw
    obtain ⟨hstop, hput⟩ := hw.put stop rfl hfit
    have hf := hfileOf l (hsize ▸ hl)
    have hnew : ∀ c ∈ new, c < v.entries := fun c hc => (hw.grown.fresh c hc).2.1
    rw [← hsize] at hfirst
    have hw' := hw
    rw [hfirst] at hw'
    -- the slot with the size is apart from the grown chain, too
    have h1 := hw'.sound hv le_rfl h hf hnew k
    have hev := evolves_write hv le_rfl h.wf hf hw'.grown hw'.chain hnew hw'.other
    have hr1 := hev.dir_chain (o := .root) trivial ⟨trivial, hr⟩
    obtain ⟨hchain, hbytes⟩ := putSize_file hv h1 hat hw.chain hr1 (mem_of_search hs) stop
    have hstep : ∀ n (fs' : Fs), fs'.FileAt file.vnode first n → fs'.disk = putSize d1 s stop →
        FileStep v fs file.vnode first l new file.offset (data.take data.length) n fs' := by
      intro n fs' hat' hdisk
      refine ⟨hat', by rwa [hdisk], hw.grown.fresh, fun p hp => ?_⟩
      rw [hdisk, take_length, hbytes p hp]
      exact hput.bytes p hp
    cases res with
    | ok c =>
      obtain rfl := hres c rfl
      refine ⟨new, data.length, c, hstep c _ (hat.setSize rfl) rfl,
        .inr ⟨hdata, hstop, le_rfl, hw.inside c rfl hdata⟩⟩
    | err =>
      exact ⟨new, data.length, size, hstep size _ hat rfl, .inl ⟨rfl, nofun⟩⟩
    | fault =>
      exact ⟨new, data.length, size, hstep size _ hat rfl, .inl ⟨rfl, nofun⟩⟩

/-- Opening a vnode leaves the bytes of the file in it. -/
lemma openNode_file (free : Bool) (flags : Nat) :
    ∃ n, FileStep v fs i first l [] 0 [] n (openNode v fs free i flags).2 ∧
      (n = size ∨ oTrunc flags = true ∧ n = 0) := by
  have hat' := hat
  obtain ⟨node, hnode, htype, hpriv⟩ := hat'
  rw [openNode, hnode]
  dsimp only
  split_ifs with hcond
  · obtain ⟨r, -, hr⟩ := h.wf.dir_owns (o := .root) trivial trivial
    have hcases := fat32FileTruncate_cases hv le_rfl h hnode hpriv htype hr
    generalize fat32FileTruncate v fs i 0 = res at hcases ⊢
    cases hcases with
    | @sub res k _ hres =>
      have hkept : FileStep v fs i first l [] 0 [] size { fs with clock := k } := by
        refine .same hat hl ?_ ?_ 0
        · rfl
        · exact prefix_rfl
      refine ⟨size, ?_, .inl rfl⟩
      cases res with
      | ok n => exact absurd rfl (hres n)
      | err => exact hkept
      | fault => exact hkept
    | @root s k _ hs =>
      obtain ⟨hchain, hbytes⟩ := putSize_file hv h hat hl hr (mem_of_search hs) 0
      obtain ⟨hdisk, hnodes⟩ := openFile_same
        { fs with disk := putSize fs.disk s 0, clock := k, nodes := setSize fs.nodes i 0 } free i flags
      refine ⟨0, ⟨hat.setSize hnodes, ?_, forall_mem_nil _, fun p hp => ?_⟩, .inr ⟨hcond.1, rfl⟩⟩
      · rwa [append_nil, hdisk]
      · rw [append_nil] at hp ⊢
        rw [hdisk, if_neg (by simp only [length_nil]; omega), hbytes p hp]
  · obtain ⟨hdisk, hnodes⟩ := openFile_same fs free i flags
    exact ⟨size, .same hat hl hdisk (by rw [hnodes]) 0, .inl rfl⟩

/-- **An open** of the file leaves its bytes, and its size unless `O_TRUNC` is set. -/
lemma fdOpenEx_file (free : Bool) {path : CString}
    (hpath : (vfsResolve v fs path.1).1 = some i) (flags : Nat) :
    ∃ n, FileStep v fs i first l [] 0 [] n (fdOpenEx v fs free path.1 flags).2 ∧
      (n = size ∨ oTrunc flags = true ∧ n = 0) := by
  have h1 := vfsResolve_sound hv le_rfl h path.2
  have hcached := vfsResolve_cached v fs path.1
  refine fdOpenEx_rule (Q := fun fs' => ∃ n, FileStep v fs i first l [] 0 [] n fs' ∧
      (n = size ∨ oTrunc flags = true ∧ n = 0))
    ⟨size, .same hat hl rfl prefix_rfl 0, .inl rfl⟩
    ⟨size, .same hat hl hcached.disk hcached.nodes 0, .inl rfl⟩ ?_
    fun hnone => nomatch hpath.symm.trans hnone
  intro j hj
  obtain rfl := Option.mem_unique hpath hj
  obtain ⟨n, hstep, hn⟩ := openNode_file hv h1 (hat.of_prefix hcached.nodes)
    (hcached.disk.symm ▸ hl) free flags
  refine ⟨n, ⟨hstep.node, hstep.chain, forall_mem_nil _, fun p hp => ?_⟩, hn⟩
  rw [hstep.bytes p hp, hcached.disk]

end

omit hv in
lemma fdSeek_same (fs : Fs) (f : Nat) (offset : Int) (whence : Whence) :
    (fdSeek fs f offset whence).2.disk = fs.disk ∧ (fdSeek fs f offset whence).2.nodes = fs.nodes := by
  rcases fdSeek_cases fs f offset whence with heq | ⟨file, n, -, heq⟩
  · rw [heq]
    exact ⟨rfl, rfl⟩
  · rw [heq]
    exact ⟨rfl, rfl⟩

end

/-! ## Runs on one file -/

/-- The call is on the file in vnode `i`. -/
def OnFile (v : Vol) (i : Nat) (fs : Fs) : FileCall → Prop
  | .open _ path _ => (vfsResolve v fs path.1).1 = some i
  | .read f _ => fs.OpenOn f i
  | .write f _ => fs.OpenOn f i
  | .seek f _ _ => fs.OpenOn f i

/-- A write ends within 32 bits. -/
def Fits (fs : Fs) : FileCall → Prop
  | .write f data => ∀ file ∈ fs.files[f]?, file.offset + data.length < 2 ^ 32
  | _ => True

instance (v : Vol) (i : Nat) (fs : Fs) (c : FileCall) : Decidable (OnFile v i fs c) :=
  match c with
  | .open .. | .read .. | .write .. | .seek .. => by dsimp only [OnFile]; infer_instance

instance (fs : Fs) (c : FileCall) : Decidable (Fits fs c) :=
  match c with
  | .open .. | .read .. | .write .. | .seek .. => by dsimp only [Fits]; infer_instance

section
variable {v : Vol} (hv : v.Shaped) {m i first size : Nat} {fs : Fs}

/-- No call makes a file of the volume something else. -/
lemma FileCall.run_fileAt (hat : fs.FileAt i first size) (c : FileCall) :
    ∃ n, (c.run v fs).FileAt i first n := by
  have hat' := hat
  obtain ⟨node, hnode, -⟩ := hat'
  refine hat.of_shape (c.run_shapes (P := fun T => T i = shapes fs.nodes i) ?_ fs rfl)
  intro free path flags _ fs' hfs'
  obtain ⟨xs, hxs⟩ := (vfsResolve_cached v fs' path.1).nodes
  rw [shapes, shapes, hnode] at hfs'
  obtain ⟨node', hnode', heq⟩ := Option.map_eq_some_iff.mp hfs'
  rw [shapes, shapes, hnode, ← hxs, getElem?_append_left (List.getElem?_eq_some_iff.mp hnode').1,
    hnode', Option.map_some, Option.map_some, heq]

lemma Sound.size_zero (h : Sound v v.entries m fs) (hat : fs.FileAt i 0 size) : size = 0 := by
  rcases h.chain_or_zero hat with ⟨-, h0⟩ | ⟨l, hl, -⟩
  · exact h0
  · exact absurd (hl.range 0 hl.first_mem).1 (by decide)

include hv

/-- Calls on a file that fit keep the invariant: none of them creates a file. -/
lemma OnFile.sound (h : Sound v v.entries m fs) {c : FileCall} (hon : OnFile v i fs c)
    (hfits : Fits fs c) : Sound v v.entries m (c.run v fs) := by
  refine FileCall.run_sound hv (le_refl _) h c (Or.inl rfl) ?_
  cases c with
  | «open» free path flags =>
    intro hcreates
    cases hcreates.1.symm.trans hon
  | read f count => trivial
  | seek f offset whence => trivial
  | write f data =>
    intro x hx hdata h0
    obtain ⟨file, hfile, -⟩ := hon
    have hlt := hfits file hfile
    have hlen : u32 data.length = data.length := Nat.mod_eq_of_lt (by omega)
    rw [hlen] at h0
    exact absurd (length_eq_zero_iff.mp h0) hdata

end
end FermiOs.Fat32
