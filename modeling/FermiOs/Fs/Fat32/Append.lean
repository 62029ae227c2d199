import FermiOs.Fs.Fat32.OneFile

/-!
# Appending through several descriptors

`O_APPEND` sets the offset of a new description to the size of the file and is then forgotten: neither
`fd_write` nor `fd_seek` looks at it again. Data is appended by exactly those writes whose description
happens to stand at the end of the file.
-/

namespace FermiOs.Fat32
open Library List
variable {data : List UInt8} {fs' : Fs}

/-- The size in vnode `i`. -/
def Fs.fileSize (fs : Fs) (i : Nat) : Nat := ((fs.nodes[i]?.bind Vnode.priv).map Priv.size).getD 0

lemma Fs.FileAt.fileSize {fs : Fs} {i first size : Nat} (h : fs.FileAt i first size) :
    fs.fileSize i = size := by
  obtain ⟨node, hnode, -, hpriv⟩ := h
  rw [Fs.fileSize, hnode, Option.bind_some, hpriv]
  rfl

/-- The calls on the file in vnode `i` through descriptors that append: opens with `O_APPEND`, seeks,
and writes that succeed. -/
def Appends (v : Vol) (i : Nat) (fs : Fs) : FileCall → Prop
  | .open _ path flags =>
    (vfsResolve v fs path.1).1 = some i ∧ oAppend flags = true ∧ oTrunc flags = false
  | .write f data => fs.OpenOn f i ∧ (fdWrite v fs f data).1 = .ok data.length
  | .seek f _ _ => fs.OpenOn f i
  | .read _ _ => False

/-- A write begins at the end of the file and ends within 32 bits. -/
def AtEnd (i : Nat) (fs : Fs) : FileCall → Prop
  | .write f data => ∀ file ∈ fs.files[f]?,
      file.offset = fs.fileSize i ∧ file.offset + data.length < 2 ^ 32
  | _ => True

instance (v : Vol) (i : Nat) (fs : Fs) (c : FileCall) : Decidable (Appends v i fs c) :=
  match c with
  | .open .. | .read .. | .write .. | .seek .. => by dsimp only [Appends]; infer_instance

instance (i : Nat) (fs : Fs) (c : FileCall) : Decidable (AtEnd i fs c) :=
  match c with
  | .open .. | .read .. | .write .. | .seek .. => by dsimp only [AtEnd]; infer_instance

/-- The buffer of a write. -/
def FileCall.buffer : FileCall → List UInt8
  | .write _ data => data
  | _ => []

/-- A call, and the buffers written so far in the order of the writes. -/
def appendStep (v : Vol) (s : Fs × List UInt8) (c : FileCall) : Fs × List UInt8 :=
  (c.run v s.1, s.2 ++ c.buffer)

section
variable {v : Vol} (hv : v.Shaped) {m i first size : Nat} {fs : Fs} {l : List Nat}
include hv

/-- The contents after a call that leaves the bytes and the size. -/
lemma FileStep.contents_same {start : Nat} (hl : ChainAt v fs.disk v.entries first l)
    (h : FileStep v fs i first l [] start [] size fs') (hcap : size ≤ capacity v l) :
    contents v fs'.disk first size = contents v fs.disk first size := by
  have hchain := h.chain
  rw [append_nil] at hchain
  rw [contents, contents, chainFrom_eq hv le_rfl hchain, chainFrom_eq hv le_rfl hl,
    fileBytes, fileBytes]
  refine map_congr_left fun j hj => ?_
  have hp : 0 + j < capacity v (l ++ []) := by
    rw [append_nil, zero_add]
    exact lt_of_lt_of_le (mem_range.mp hj) hcap
  have hb := h.bytes (0 + j) hp
  rw [if_neg (by simp only [length_nil]; omega), append_nil] at hb
  exact hb

/-- The contents after a write at the end of the file. -/
lemma FileStep.contents_append {new : List Nat} (hl : ChainAt v fs.disk v.entries first l)
    (hcap : size ≤ capacity v l)
    (h : FileStep v fs i first l new size data (size + data.length) fs')
    (hend : size + data.length ≤ capacity v (l ++ new)) :
    contents v fs'.disk first (size + data.length) = contents v fs.disk first size ++ data := by
  rw [contents, contents, chainFrom_eq hv le_rfl h.chain, chainFrom_eq hv le_rfl hl]
  refine ext_getElem? fun j => ?_
  rw [getElem?_fileBytes, getElem?_append, length_fileBytes, getElem?_fileBytes, zero_add]
  by_cases hold : j < size
  · rw [if_pos (by omega), if_pos hold, if_pos hold, h.bytes j (by omega), if_neg (by omega),
      fileByte_append (lt_of_lt_of_le hold hcap)]
  · by_cases hin : j < size + data.length
    · rw [if_pos hin, if_neg hold, h.bytes j (by omega), if_pos ⟨by omega, hin⟩,
        getD_eq_getElem?_getD, getElem?_eq_getElem (by omega), Option.getD_some]
    · rw [if_neg hin, if_neg hold, getElem?_eq_none (by omega)]

omit hv in
/-- A file without a chain takes no data. -/
lemma fdWrite_zero (hat : fs.FileAt i 0 size) {f : Nat} (hf : fs.OpenOn f i)
    (hok : (fdWrite v fs f data).1 = .ok data.length) : data = [] := by
  obtain ⟨file, hfile, rfl⟩ := hf
  rcases fdWrite_cases v fs f data with
    ⟨r, hr, heq⟩ | ⟨file', node, pd, hfile', hnode, htype, hpriv, -, -, heq⟩
  · rw [heq] at hok
    rcases hr with rfl | ⟨hnil, -⟩
    · cases hok
    · exact hnil
  · obtain rfl := Option.mem_unique hfile hfile'
    have hzero := (hat.unique ⟨node, hnode, htype, hpriv⟩).1
    rw [heq, ← hzero, fat32FileWrite_first_zero] at hok
    cases hok

/-- A call that appends leaves the contents with its buffer behind them. -/
lemma appends_contents (h : Sound v v.entries m fs) (hat : fs.FileAt i first size) {c : FileCall}
    (hc : Appends v i fs c) (hend : AtEnd i fs c) :
    Sound v v.entries m (c.run v fs) ∧ ∃ n, (c.run v fs).FileAt i first n ∧
      contents v (c.run v fs).disk first n = contents v fs.disk first size ++ c.buffer := by
  have hon : OnFile v i fs c := by
    cases c with
    | «open» free path flags => exact hc.1
    | read f count => exact hc.elim
    | write f data => exact hc.1
    | seek f offset whence => exact hc
  have hfits : Fits fs c := by
    cases c with
    | write f data => exact fun file hfile => (hend file hfile).2
    | «open» free path flags => trivial
    | read f count => trivial
    | seek f offset whence => trivial
  have hsound := hon.sound hv h hfits
  refine ⟨hsound, ?_⟩
  rcases h.chain_or_zero hat with ⟨rfl, rfl⟩ | ⟨l, hl, hcap⟩
  · -- without a chain the file stays empty, and only empty writes succeed
    obtain ⟨n, hn⟩ := FileCall.run_fileAt (v := v) hat c
    obtain rfl := hsound.size_zero hn
    refine ⟨0, hn, ?_⟩
    have hbuffer : c.buffer = [] := by
      cases c with
      | write f data => exact fdWrite_zero hat hc.1 hc.2
      | «open» free path flags => rfl
      | read f count => rfl
      | seek f offset whence => rfl
    rw [hbuffer]
    rfl
  cases c with
  | read f count => exact hc.elim
  | seek f offset whence =>
    obtain ⟨hdisk, hnodes⟩ := fdSeek_same fs f offset whence
    refine ⟨size, hat.of_nodes hnodes, ?_⟩
    show contents v (fdSeek fs f offset whence).2.disk first size = _ ++ []
    rw [hdisk, append_nil]
  | «open» free path flags =>
    obtain ⟨hpath, -, htrunc⟩ := hc
    obtain ⟨n, hstep, hn⟩ := fdOpenEx_file hv h hat hl free hpath flags
    obtain rfl : n = size := hn.resolve_right fun ht => by
      rw [htrunc] at ht
      cases ht.1
    exact ⟨n, hstep.node, (hstep.contents_same hv hl hcap).trans (append_nil _).symm⟩
  | write f data =>
    obtain ⟨⟨file, hfile, hi⟩, hok⟩ := hc
    obtain ⟨hoff, hfit⟩ := hend file hfile
    rw [hat.fileSize] at hoff
    obtain ⟨new, k, n, hstep, hn⟩ := fdWrite_file hv h hat hl hfile hi hfit
    refine ⟨n, hstep.node, ?_⟩
    rcases hn with ⟨rfl, hnil⟩ | ⟨-, rfl, hk, hle⟩
    · obtain rfl := hnil _ hok
      rw [take_nil, hoff] at hstep
      exact hstep.contents_append hv hl hcap (hcap.trans (capacity_append l new))
    · rw [take_of_length_le hk, hoff] at hstep
      rw [hoff] at hle ⊢
      exact hstep.contents_append hv hl hcap hle

end

/-! ## Two descriptors -/

/-- `/mnt/fat32/A`, a file of 1024 bytes, opened with `O_WRONLY | O_APPEND`. -/
def openedToAppend : Fs := FileCall.run smallVol (mountedOn twoClusters) (.open true pathA 1025)

lemma openedToAppend_sound : Sound smallVol 128 2 openedToAppend :=
  FileCall.run_sound smallVol_shaped le_rfl (mountedOn_mounted twoClusters_wf).sound _
    (.inl rfl) (show Orderly smallVol (mountedOn twoClusters) _ by decide +kernel)

lemma openedToAppend_file : openedToAppend.FileAt 3 3 1024 := by decide +kernel

/-- The file is opened a second time after the first write. -/
def turnsRun : List FileCall :=
  [.write 0 [7], .open true pathA 1025, .write 1 [8, 9], .seek 0 0 .end, .write 0 [10]]

/-- The file is opened twice before the first write. -/
def togetherRun : List FileCall := [.open true pathA 1025, .write 0 [7], .write 1 [8]]

end FermiOs.Fat32
