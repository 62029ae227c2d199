import FermiOs.Fs.Fat32.Append

/-!
# Bytes nobody wrote

Neither truncation nor the growth of a chain clears a byte, and a write may begin behind the end of the
file. What the skipped positions then show is what the disk had: data that was cut off before, or that
of another file whose cluster was free. As long as writes skip clean bytes only, a read delivers zeros
and bytes that were written to the position since it was last cut off.
-/

namespace FermiOs.Fat32
open Library List

/-! ## Histories -/

/-- The bytes written to each position of a file since the file was created or the position was last
cut off. -/
def History : Type := Nat → List UInt8

/-- Data is written at an offset. -/
def History.record (h : History) (start : Nat) (data : List UInt8) : History := fun p =>
  if start ≤ p ∧ p < start + data.length then data.getD (p - start) 0 :: h p else h p

/-- The file is cut off at `n`. -/
def History.cut (h : History) (n : Nat) : History := fun p => if p < n then h p else []

/-- A byte that may be read at `p`. -/
def History.Allows (h : History) (p : Nat) (b : UInt8) : Prop := b = 0 ∨ b ∈ h p

instance (h : History) (p : Nat) (b : UInt8) : Decidable (h.Allows p b) :=
  inferInstanceAs (Decidable (_ ∨ _))

/-- The bytes a file has at first count as written. -/
def initialHistory (v : Vol) (d : Disk) (first size : Nat) : History := fun p =>
  ((contents v d first size)[p]?).toList

/-- A write is recorded, whether it succeeds or not. -/
def History.after (h : History) (fs : Fs) : FileCall → History
  | .write f data => h.record ((fs.files[f]?.map File.offset).getD 0) data
  | _ => h

/-- The call asks for truncation. -/
def FileCall.truncates : FileCall → Bool
  | .open _ _ flags => oTrunc flags
  | _ => false

/-- A call on the file in vnode `i`, with its history. -/
def historyStep (v : Vol) (i : Nat) (s : Fs × History) (c : FileCall) : Fs × History :=
  let fs := c.run v s.1
  let n := fs.fileSize i
  let h := s.2.after s.1 c
  (fs, if n < s.1.fileSize i ∨ c.truncates = true ∧ n = 0 then h.cut n else h)

section
variable {h : History} {start n p : Nat} {data : List UInt8} {b : UInt8}

lemma History.Allows.record (hb : h.Allows p b) : (h.record start data).Allows p b := by
  refine hb.imp_right fun hmem => ?_
  rw [History.record]
  split
  · exact mem_cons_of_mem _ hmem
  · exact hmem

lemma History.allows_recorded (hlo : start ≤ p) (hhi : p < start + data.length) :
    (h.record start data).Allows p (data.getD (p - start) 0) := by
  right
  rw [History.record, if_pos ⟨hlo, hhi⟩]
  exact mem_cons_self

lemma History.cut_apply (hp : p < n) : h.cut n p = h p := if_pos hp

/-- Below the size, what a step cuts off does not matter. -/
lemma historyStep_allows {v : Vol} {i : Nat} {s : Fs × History} {c : FileCall}
    (hp : p < (c.run v s.1).fileSize i) (hb : (s.2.after s.1 c).Allows p b) :
    (historyStep v i s c).2.Allows p b := by
  refine hb.imp_right fun hmem => ?_
  rw [historyStep]
  dsimp only
  split
  · rwa [History.cut_apply hp]
  · exact hmem

end

/-! ## Clean bytes -/

/-- The chain of the file in vnode `i`. -/
def Fs.chainOf (v : Vol) (fs : Fs) (i : Nat) : List Nat :=
  chainFrom v fs.disk v.entries (((fs.nodes[i]?.bind Vnode.priv).map Priv.first).getD 0)

/-- Every byte of every free cluster is zero. -/
def FreeZero (v : Vol) (d : Disk) : Prop :=
  ∀ c ∈ freeBelow v d v.entries, ∀ k < v.spc, ∀ j < 512, d (clusterToSector v c + k) j = 0

section
variable (v : Vol) (i : Nat) (s : Fs × History)

/-- A write at `start` skips only bytes that may be read. -/
def SkipsClean (start : Nat) : Prop :=
  (∀ p < min start (capacity v (s.1.chainOf v i)), s.1.fileSize i ≤ p →
    s.2.Allows p (fileByte v s.1.disk (s.1.chainOf v i) p)) ∧
  (capacity v (s.1.chainOf v i) < start → FreeZero v s.1.disk)

/-- A write ends within 32 bits and skips only clean bytes. -/
def WritesClean : FileCall → Prop
  | .write f data => ∀ file ∈ s.1.files[f]?, file.offset + data.length < 2 ^ 32 ∧
      (data ≠ [] → SkipsClean v i s file.offset)
  | _ => True

end

instance (v : Vol) (d : Disk) : Decidable (FreeZero v d) :=
  inferInstanceAs (Decidable (∀ c ∈ freeBelow v d v.entries, ∀ k < v.spc, ∀ j < 512, _))

instance (v : Vol) (i : Nat) (s : Fs × History) (start : Nat) : Decidable (SkipsClean v i s start) :=
  inferInstanceAs (Decidable ((∀ p < _, _) ∧ (_ → _)))

instance (v : Vol) (i : Nat) (s : Fs × History) (c : FileCall) : Decidable (WritesClean v i s c) :=
  match c with
  | .open .. | .read .. | .write .. | .seek .. => by dsimp only [WritesClean]; infer_instance

section
variable {v : Vol} (hv : v.Shaped) {m i first size : Nat} {fs : Fs} {h : History} {l new : List Nat}

lemma Fs.FileAt.chainOf (hv : v.Shaped) (hat : fs.FileAt i first size)
    (hl : ChainAt v fs.disk v.entries first l) : fs.chainOf v i = l := by
  obtain ⟨node, hnode, -, hpriv⟩ := hat
  rw [Fs.chainOf, hnode, Option.bind_some, hpriv]
  exact chainFrom_eq hv le_rfl hl

include hv

/-- A byte in a cluster that was free. -/
lemma fileByte_fresh (hzero : FreeZero v fs.disk)
    (hfresh : ∀ c ∈ new, 2 ≤ c ∧ c < v.entries ∧ fatVal v fs.disk c = 0) {p : Nat}
    (hlo : capacity v l ≤ p) (hhi : p < capacity v (l ++ new)) : fileByte v fs.disk (l ++ new) p = 0 := by
  have hq := lt_capacity.mp hhi
  have hge : l.length * v.spc ≤ p / 512 := Nat.not_lt.mp fun hlt => by
    have := lt_capacity.mpr hlt
    omega
  have hk : p / 512 / v.spc < (l ++ new).length := Nat.div_lt_of_lt_mul (Nat.mul_comm _ _ ▸ hq)
  have hle : l.length ≤ p / 512 / v.spc := (Nat.le_div_iff_mul_le hv.spc).mpr hge
  rw [length_append] at hk
  have hmem : (l ++ new).getD (p / 512 / v.spc) 0 ∈ new := by
    rw [getD_append_right _ _ _ _ hle, getD_eq_getElem?_getD,
      getElem?_eq_getElem (by omega), Option.getD_some]
    exact getElem_mem _
  obtain ⟨h2, hlt, h0⟩ := hfresh _ hmem
  exact hzero _ (mem_freeBelow.mpr ⟨hlt, h2, h0⟩) _ (Nat.mod_lt _ hv.spc) _ (Nat.mod_lt _ (by decide))

variable (v i first) in
/-- The invariant: below the size the file holds only bytes that may be read. -/
structure CleanFile (m : Nat) (s : Fs × History) : Prop where
  sound : Sound v v.entries m s.1
  file : ∃ size, s.1.FileAt i first size ∧ ∀ l, ChainAt v s.1.disk v.entries first l →
    ∀ p < size, s.2.Allows p (fileByte v s.1.disk l p)

omit hv in
/-- The bytes after a step, from those before and the data of the step. -/
lemma FileStep.allows {fs' : Fs} {start n : Nat} {data : List UInt8} {h' : History}
    (hstep : FileStep v fs i first l new start data n fs') (hn : n ≤ capacity v (l ++ new))
    (hdata : ∀ p, start ≤ p → p < start + data.length → h'.Allows p (data.getD (p - start) 0))
    (hold : ∀ p, p < n → ¬ (start ≤ p ∧ p < start + data.length) →
      h'.Allows p (fileByte v fs.disk (l ++ new) p)) :
    ∀ p < n, h'.Allows p (fileByte v fs'.disk (l ++ new) p) := by
  intro p hp
  rw [hstep.bytes p (by omega)]
  split_ifs with hin
  · exact hdata p hin.1 hin.2
  · exact hold p hp hin

/-- The bytes of the file after a write. -/
lemma fdWrite_allows (hs : Sound v v.entries m fs) (hat : fs.FileAt i first size)
    (hl : ChainAt v fs.disk v.entries first l)
    (hbytes : ∀ p < size, h.Allows p (fileByte v fs.disk l p)) {f : Nat} {data : List UInt8}
    (hf : fs.OpenOn f i) (hclean : WritesClean v i (fs, h) (.write f data)) :
    ∃ new n, ChainAt v (fdWrite v fs f data).2.disk v.entries first (l ++ new) ∧
      (fdWrite v fs f data).2.FileAt i first n ∧
      ∀ p < n, (h.after fs (.write f data)).Allows p
        (fileByte v (fdWrite v fs f data).2.disk (l ++ new) p) := by
  obtain ⟨file, hfile, hi⟩ := hf
  obtain ⟨hfit, hskip⟩ := hclean file hfile
  have hafter : h.after fs (.write f data) = h.record file.offset data := by
    rw [History.after, show fs.files[f]? = some file from hfile]
    rfl
  have hcap := hs.size_le hv hat hl
  obtain ⟨new, k, n, hstep, hn⟩ := fdWrite_file hv hs hat hl hfile hi hfit
  refine ⟨new, n, hstep.chain, hstep.node, ?_⟩
  rw [hafter]
  have htake : (data.take k).length ≤ data.length := length_take_le' k data
  have hgrown := capacity_append (v := v) l new
  -- what was put is recorded
  have hput : ∀ p, file.offset ≤ p → p < file.offset + (data.take k).length →
      (h.record file.offset data).Allows p ((data.take k).getD (p - file.offset) 0) := by
    intro p hlo hhi
    have hget : (data.take k).getD (p - file.offset) 0 = data.getD (p - file.offset) 0 := by
      rw [length_take] at hhi
      rw [getD_eq_getElem?_getD, getD_eq_getElem?_getD, getElem?_take_of_lt (by omega)]
    rw [hget]
    exact History.allows_recorded hlo (by omega)
  have hkept : ∀ p, p < size → (h.record file.offset data).Allows p (fileByte v fs.disk (l ++ new) p) := by
    intro p hp
    rw [fileByte_append (by omega)]
    exact (hbytes p hp).record
  rcases hn with ⟨rfl, -⟩ | ⟨hne, rfl, hk, hle⟩
  · exact hstep.allows (by omega) hput fun p hp _ => hkept p hp
  refine hstep.allows hle hput fun p hp hout => ?_
  rw [length_take, min_eq_right hk] at hout
  by_cases hold : p < size
  · exact hkept p hold
  -- a position that the write skips
  obtain ⟨hslack, hfree⟩ := hskip hne
  rw [hat.chainOf hv hl, hat.fileSize] at hslack
  rw [hat.chainOf hv hl] at hfree
  by_cases hin : p < capacity v l
  · rw [fileByte_append hin]
    exact (hslack p (by omega) (by omega)).record
  · left
    exact fileByte_fresh hv (hfree (by omega)) hstep.fresh (by omega) (by omega)

/-- A call on the file that writes clean keeps the invariant. -/
lemma CleanFile.step {s : Fs × History} (hclean : CleanFile v i first m s) {c : FileCall}
    (hon : OnFile v i s.1 c) (hwrites : WritesClean v i s c) :
    CleanFile v i first m (historyStep v i s c) := by
  obtain ⟨fs, h⟩ := s
  obtain ⟨hs, size, hat, hbytes⟩ := hclean
  have hfits : Fits fs c := by
    cases c with
    | write f data => exact fun file hfile => (hwrites file hfile).1
    | «open» free path flags => trivial
    | read f count => trivial
    | seek f offset whence => trivial
  have hs' : Sound v v.entries m (c.run v fs) := hon.sound hv hs hfits
  refine ⟨hs', ?_⟩
  -- the bytes below the new size, as the history allows them before anything is cut off
  suffices hafter : ∃ n, (c.run v fs).FileAt i first n ∧
      ∀ l, ChainAt v (c.run v fs).disk v.entries first l → ∀ p < n,
        (h.after fs c).Allows p (fileByte v (c.run v fs).disk l p) by
    obtain ⟨n, hn, hall⟩ := hafter
    refine ⟨n, hn, fun l hl p hp => historyStep_allows ?_ (hall l hl p hp)⟩
    rwa [hn.fileSize]
  rcases hs.chain_or_zero hat with ⟨rfl, -⟩ | ⟨l, hl, hcap⟩
  · obtain ⟨n, hn⟩ := FileCall.run_fileAt (v := v) hat c
    obtain rfl := hs'.size_zero hn
    exact ⟨0, hn, fun _ _ p hp => absurd hp (Nat.not_lt_zero p)⟩
  have hold := hbytes l hl
  -- it is enough to look at one chain
  suffices hone : ∃ new n, ChainAt v (c.run v fs).disk v.entries first (l ++ new) ∧
      (c.run v fs).FileAt i first n ∧
      ∀ p < n, (h.after fs c).Allows p (fileByte v (c.run v fs).disk (l ++ new) p) by
    obtain ⟨new, n, hchain, hn, hall⟩ := hone
    refine ⟨n, hn, fun l' hl' => ?_⟩
    rwa [hl'.unique hv hchain le_rfl]
  cases c with
  | write f data => exact fdWrite_allows hv hs hat hl hold hon hwrites
  | read f count =>
    refine ⟨[], size, ?_, hat.of_nodes (fdRead_nodes v fs f count), ?_⟩
    · rwa [append_nil, FileCall.run, (fdRead_sound hv le_rfl hs f count).2]
    · rwa [append_nil, FileCall.run, (fdRead_sound hv le_rfl hs f count).2]
  | seek f offset whence =>
    obtain ⟨hdisk, hnodes⟩ := fdSeek_same fs f offset whence
    refine ⟨[], size, ?_, hat.of_nodes hnodes, ?_⟩
    · rwa [append_nil, FileCall.run, hdisk]
    · rwa [append_nil, FileCall.run, hdisk]
  | «open» free path flags =>
    obtain ⟨n, hstep, hn⟩ := fdOpenEx_file hv hs hat hl free hon flags
    refine ⟨[], n, hstep.chain, hstep.node, hstep.allows ?_ ?_ fun p hp _ => ?_⟩
    · rw [append_nil]
      rcases hn with rfl | ⟨-, rfl⟩
      · exact hcap
      · exact Nat.zero_le _
    · intro p hlo hhi
      simp only [length_nil] at hhi
      omega
    rw [append_nil]
    refine hold p ?_
    rcases hn with rfl | ⟨-, rfl⟩
    · exact hp
    · exact absurd hp (Nat.not_lt_zero p)

/-- At first the file has the bytes it has. -/
lemma cleanFile_initial (hs : Sound v v.entries m fs) (hat : fs.FileAt i first size) :
    CleanFile v i first m (fs, initialHistory v fs.disk first size) := by
  refine ⟨hs, size, hat, fun l hl p hp => .inr ?_⟩
  show _ ∈ initialHistory v fs.disk first size p
  rw [initialHistory, contents, chainFrom_eq hv le_rfl hl, getElem?_fileBytes, if_pos hp, zero_add]
  exact mem_singleton.mpr rfl

end

/-! ## Cut off and back again -/

/-- A file of two clusters with zeros, opened for reading and writing. -/
def openedZeros : Fs := FileCall.run smallVol (mountedOn twoClusters) (.open true pathA 2)

lemma openedZeros_sound : Sound smallVol 128 2 openedZeros :=
  FileCall.run_sound smallVol_shaped le_rfl (mountedOn_mounted twoClusters_wf).sound _
    (.inl rfl) (show Orderly smallVol (mountedOn twoClusters) _ by decide +kernel)

lemma openedZeros_file : openedZeros.FileAt 3 3 1024 := by decide +kernel

/-- A write, a truncation, and a write behind the end that skips zeros. -/
def skipZerosRun : List FileCall :=
  [.seek 0 200 .set, .write 0 [7], .open true pathA 514, .seek 1 100 .set, .write 1 [8],
    .seek 1 99 .set]

/-- A byte is written, the file truncated, and the byte behind it written. -/
def skipStaleRun : List FileCall :=
  [.write 0 [7], .open true pathA 514, .seek 1 1 .set, .write 1 [8], .seek 1 0 .set]

end FermiOs.Fat32
