import FermiOs.Fs.Fat32.Chain
import Mathlib.Data.List.GetD

/-!
# File data

The bytes of a file lie in the sectors of its chain, in order. `Put` says that a range of them was
replaced and no other sector changed; `fat32_write_at` is shown to do that to a chain it may have grown
before, and `fat32_read` to deliver the bytes.
-/

namespace FermiOs.Fat32
open Library List Function

/-! ## Sectors of a chain -/

/-- The sectors of a cluster. -/
def InCluster (v : Vol) (c n : Nat) : Prop :=
  clusterToSector v c ≤ n ∧ n < clusterToSector v c + v.spc

/-- Clusters of the volume, each once. -/
structure Clusters (v : Vol) (l : List Nat) : Prop where
  range : ∀ c ∈ l, 2 ≤ c ∧ c < v.entries
  nodup : l.Nodup

variable {b : Sector} {c k m start : Nat} {d d' : Disk} {data : List UInt8} {new : List Nat}
  {r : Option (List UInt8)} {v : Vol}

lemma ChainAt.clusters (hv : v.Shaped) {first : Nat} {l : List Nat}
    (h : ChainAt v d v.entries first l) : Clusters v l := ⟨h.range, h.nodup hv le_rfl⟩

/-- Sector `q` of a file. -/
def fileSector (v : Vol) (l : List Nat) (q : Nat) : Nat :=
  clusterToSector v (l.getD (q / v.spc) 0) + q % v.spc

/-- Byte `p` of a file. -/
def fileByte (v : Vol) (d : Disk) (l : List Nat) (p : Nat) : UInt8 :=
  d (fileSector v l (p / 512)) (p % 512)

variable {count inner p q : Nat}

section
variable (hv : v.Shaped) {c' n : Nat} {l : List Nat}
include hv

lemma clusterToSector_eq (h2 : 2 ≤ c) (hc : c < v.entries) :
    clusterToSector v c = v.dataStart + (c - 2) * v.spc := by
  have hfits := hv.fits
  have hnum := hv.numbers
  have hlt : (c - 2) * v.spc < v.entries * v.spc := Nat.mul_lt_mul_of_pos_right (by omega) hv.spc
  have hcl : u32 (c + 2 ^ 32 - 2) = c - 2 := by
    simp only [u32, fatEoc] at *
    omega
  rw [clusterToSector, hcl, u32]
  omega

/-- The sectors of a cluster are sectors of the data with 32-bit numbers. -/
lemma InCluster.bounds (h : InCluster v c n) (h2 : 2 ≤ c) (hc : c < v.entries) :
    v.dataStart ≤ n ∧ n < 2 ^ 32 := by
  obtain ⟨hlo, hhi⟩ := h
  rw [clusterToSector_eq hv h2 hc] at hlo hhi
  have hfits := hv.fits
  have hmul : (c - 2 + 1) * v.spc ≤ v.entries * v.spc := Nat.mul_le_mul_right _ (by omega)
  rw [add_one_mul] at hmul
  omega

/-- Different clusters have different sectors. -/
lemma InCluster.inj (h : InCluster v c n) (h' : InCluster v c' n) (h2 : 2 ≤ c)
    (hc : c < v.entries) (h2' : 2 ≤ c') (hc' : c' < v.entries) : c = c' := by
  obtain ⟨hlo, hhi⟩ := h
  obtain ⟨hlo', hhi'⟩ := h'
  rw [clusterToSector_eq hv h2 hc] at hlo hhi
  rw [clusterToSector_eq hv h2' hc'] at hlo' hhi'
  rcases lt_trichotomy c c' with hlt | heq | hlt
  · have hmul : (c - 2 + 1) * v.spc ≤ (c' - 2) * v.spc := Nat.mul_le_mul_right _ (by omega)
    rw [add_one_mul] at hmul
    omega
  · exact heq
  · have hmul : (c' - 2 + 1) * v.spc ≤ (c - 2) * v.spc := Nat.mul_le_mul_right _ (by omega)
    rw [add_one_mul] at hmul
    omega

lemma inCluster_fileSector (hk : q / v.spc = k) (hc : l[k]? = some c) :
    InCluster v c (fileSector v l q) := by
  have hmod := Nat.mod_lt q hv.spc
  rw [fileSector, hk, getD_eq_getElem?_getD, hc, Option.getD_some, InCluster]
  omega

lemma fileSector_inCluster (hq : q < l.length * v.spc) : ∃ c ∈ l, InCluster v c (fileSector v l q) := by
  have hk : q / v.spc < l.length := Nat.div_lt_of_lt_mul (Nat.mul_comm _ _ ▸ hq)
  exact ⟨l[q / v.spc], getElem_mem hk, inCluster_fileSector hv rfl (getElem?_eq_getElem hk)⟩

lemma fileSector_inj (hl : Clusters v l) {q' : Nat} (hq : q < l.length * v.spc)
    (hq' : q' < l.length * v.spc) (h : fileSector v l q = fileSector v l q') : q = q' := by
  have hk : q / v.spc < l.length := Nat.div_lt_of_lt_mul (Nat.mul_comm _ _ ▸ hq)
  have hk' : q' / v.spc < l.length := Nat.div_lt_of_lt_mul (Nat.mul_comm _ _ ▸ hq')
  have hin := inCluster_fileSector hv rfl (getElem?_eq_getElem hk)
  have hin' := inCluster_fileSector hv rfl (getElem?_eq_getElem hk')
  rw [← h] at hin'
  have hr := hl.range _ (getElem_mem hk)
  have hr' := hl.range _ (getElem_mem hk')
  have heq := hin.inj hv hin' hr.1 hr.2 hr'.1 hr'.2
  have hdiv : q / v.spc = q' / v.spc := hl.nodup.getElem_inj_iff.mp heq
  have hmod : q % v.spc = q' % v.spc := by
    simp only [fileSector, hdiv] at h
    omega
  rw [← Nat.div_add_mod q v.spc, ← Nat.div_add_mod q' v.spc, hdiv, hmod]

omit hv in
lemma fileSector_append (hq : q < l.length * v.spc) : fileSector v (l ++ new) q = fileSector v l q := by
  have hk : q / v.spc < l.length := Nat.div_lt_of_lt_mul (Nat.mul_comm _ _ ▸ hq)
  rw [fileSector, fileSector, getD_append _ _ _ _ hk]

end

/-! ## Replacing bytes -/

/-- The capacity of a chain in bytes. -/
def capacity (v : Vol) (l : List Nat) : Nat := l.length * v.bytesPerCluster

/-- From `d` to `d'` the bytes of the file from `start` on were replaced by `data`. -/
structure Put (v : Vol) (l : List Nat) (start : Nat) (data : List UInt8) (d d' : Disk) : Prop where
  bytes : ∀ p, p < capacity v l → fileByte v d' l p =
    if start ≤ p ∧ p < start + data.length then data.getD (p - start) 0 else fileByte v d l p
  other : ∀ n, v.dataStart ≤ n → (∀ c ∈ l, ¬ InCluster v c n) → d' n = d n

section
variable {d'' : Disk} {l : List Nat} {data' : List UInt8}

lemma lt_capacity : p < capacity v l ↔ p / 512 < l.length * v.spc := by
  rw [capacity, Vol.bytesPerCluster, ← mul_assoc, Nat.div_lt_iff_lt_mul (by omega)]

lemma Put.refl (v : Vol) (l : List Nat) (start : Nat) (d : Disk) : Put v l start [] d d := by
  refine ⟨fun p _ => ?_, fun _ _ _ => rfl⟩
  rw [if_neg (by simp only [length_nil]; omega)]

lemma Put.trans (h : Put v l start data d d') (h' : Put v l (start + data.length) data' d' d'') :
    Put v l start (data ++ data') d d'' := by
  refine ⟨fun p hp => ?_, fun n hn hl => (h'.other n hn hl).trans (h.other n hn hl)⟩
  rw [h'.bytes p hp, h.bytes p hp, length_append]
  by_cases h1 : start + data.length ≤ p ∧ p < start + data.length + data'.length
  · rw [if_pos h1, if_pos (by omega), getD_append_right _ _ _ _ (by omega)]
    congr 1
    omega
  · rw [if_neg h1]
    by_cases h2 : start ≤ p ∧ p < start + data.length
    · rw [if_pos h2, if_pos (by omega), getD_append _ _ _ _ (by omega)]
    · rw [if_neg h2, if_neg (by omega)]

/-- Replacing bytes of one sector. -/
lemma put_sector (hv : v.Shaped) (hl : Clusters v l) (hcap : start < capacity v l)
    (hfit : start % 512 + data.length ≤ 512)
    (hb : ∀ i, i < 512 → b i = if start % 512 ≤ i ∧ i < start % 512 + data.length
      then data.getD (i - start % 512) 0 else d (fileSector v l (start / 512)) i) :
    Put v l start data d (update d (fileSector v l (start / 512)) b) := by
  refine ⟨fun p hp => ?_, fun n _ hn => ?_⟩
  · rw [fileByte]
    by_cases hsec : p / 512 = start / 512
    · rw [hsec, update_self, hb _ (Nat.mod_lt _ (by omega))]
      by_cases hin : start ≤ p ∧ p < start + data.length
      · rw [if_pos hin, if_pos (by omega)]
        congr 1
        omega
      · rw [if_neg hin, if_neg (by omega), fileByte, hsec]
    · rw [if_neg (by omega), update_of_ne, fileByte]
      intro heq
      exact hsec (fileSector_inj hv hl (lt_capacity.mp hp) (lt_capacity.mp hcap) heq)
  · refine update_of_ne (fun heq => ?_) _ _
    obtain ⟨c, hc, hin⟩ := fileSector_inCluster hv (lt_capacity.mp hcap)
    exact hn c hc (heq ▸ hin)

/-- Replacing bytes of one sector by the first bytes of a list. -/
lemma put_chunk (hv : v.Shaped) (hl : Clusters v l) (hcap : start < capacity v l)
    (hfit : start % 512 + m ≤ 512) (hm : m ≤ data.length)
    (hb : ∀ i, i < 512 → b i = if start % 512 ≤ i ∧ i < start % 512 + m
      then data.getD (i - start % 512) 0 else d (fileSector v l (start / 512)) i) :
    Put v l start (data.take m) d (update d (fileSector v l (start / 512)) b) := by
  have hlen : (data.take m).length = m := by rw [length_take, min_eq_left hm]
  refine put_sector hv hl hcap (by rwa [hlen]) fun i hi => ?_
  rw [hb i hi, hlen]
  by_cases h : start % 512 ≤ i ∧ i < start % 512 + m
  · rw [if_pos h, if_pos h, getD_eq_getElem?_getD, getD_eq_getElem?_getD,
      getElem?_take_of_lt (by omega)]
  · rw [if_neg h, if_neg h]

/-- The bytes of a file are the same if its chain is longer. -/
lemma fileByte_append (hp : p < capacity v l) : fileByte v d (l ++ new) p = fileByte v d l p := by
  rw [fileByte, fileByte, fileSector_append (lt_capacity.mp hp)]

variable (hv : v.Shaped)
include hv

lemma dataStart_le_fileSector (hl : Clusters v l) (hp : p < capacity v l) :
    v.dataStart ≤ fileSector v l (p / 512) := by
  obtain ⟨c, hc, hin⟩ := fileSector_inCluster hv (lt_capacity.mp hp)
  exact (hin.bounds hv (hl.range c hc).1 (hl.range c hc).2).1

/-- A change of the table before does not matter. -/
lemma Put.of_sameData (hl : Clusters v l) (hd : SameData v d d')
    (h : Put v l start data d' d'') : Put v l start data d d'' := by
  refine ⟨fun p hp => ?_, fun n hn hout => (h.other n hn hout).trans (hd n hn)⟩
  rw [h.bytes p hp, fileByte, fileByte, hd _ (dataStart_le_fileSector hv hl hp)]

/-- What was written in a chain was written in the longer one. -/
lemma Put.grow (hl : Clusters v (l ++ new)) (hend : start + data.length ≤ capacity v l)
    (h : Put v l start data d d') :
    Put v (l ++ new) start data d d' := by
  refine ⟨fun p hp => ?_, fun n hn hout => h.other n hn fun c hc => hout c (mem_append_left _ hc)⟩
  by_cases hin : p < capacity v l
  · rw [fileByte_append hin, fileByte_append hin, h.bytes p hin]
  rw [if_neg (by omega), fileByte, fileByte, h.other _ (dataStart_le_fileSector hv hl hp)]
  -- a sector behind the old chain is not one of its sectors
  intro c hc hmem
  have hq : p / 512 < (l ++ new).length * v.spc := lt_capacity.mp hp
  have hk : p / 512 / v.spc < (l ++ new).length := Nat.div_lt_of_lt_mul (Nat.mul_comm _ _ ▸ hq)
  have hin' := inCluster_fileSector hv rfl (getElem?_eq_getElem hk)
  have hr := hl.range c (mem_append_left _ hc)
  have hr' := hl.range _ (getElem_mem hk)
  have heq := hmem.inj hv hin' hr.1 hr.2 hr'.1 hr'.2
  have hle : l.length ≤ p / 512 / v.spc := by
    rw [Nat.le_div_iff_mul_le hv.spc]
    exact Nat.not_lt.mp fun hlt => hin (lt_capacity.mpr hlt)
  rw [getElem_append_right hle] at heq
  exact (nodup_append.mp hl.nodup).2.2 c hc _ (getElem_mem _) heq

end

/-! ## Writing -/

section
variable (hv : v.Shaped) {Fails : Transfer → Prop} {l : List Nat} (hl : Clusters v l)
  (hk : l[k]? = some c)
include hv hl hk

/-- The sector that `fat32_write_at` computes inside cluster `k` of the chain. -/
lemma sector_eq (hin : inner < v.bytesPerCluster) : u32 (clusterToSector v c + inner / 512) =
        fileSector v l ((k * v.bytesPerCluster + inner) / 512) ∧
      InCluster v c (u32 (clusterToSector v c + inner / 512)) := by
  have hmem := mem_of_getElem? hk
  have hrange := hl.range c hmem
  have hs : inner / 512 < v.spc := Nat.div_lt_of_lt_mul (by rwa [mul_comm])
  have hbound : InCluster v c (clusterToSector v c + inner / 512) := by
    simp only [InCluster]
    omega
  have hdiv : (k * v.bytesPerCluster + inner) / 512 = inner / 512 + v.spc * k := by
    rw [Vol.bytesPerCluster, ← mul_assoc, mul_comm k, add_comm, Nat.add_mul_div_right _ _ (by omega)]
  rw [u32, Nat.mod_eq_of_lt (hbound.bounds hv hrange.1 hrange.2).2]
  refine ⟨?_, hbound⟩
  rw [hdiv, fileSector, Nat.add_mul_div_left _ _ hv.spc, Nat.div_eq_of_lt hs, zero_add,
    Nat.add_mul_mod_self_left, Nat.mod_eq_of_lt hs, getD_eq_getElem?_getD, hk, Option.getD_some]

omit hv hl in
lemma lt_capacity_of_inner (hin : inner < v.bytesPerCluster) :
    k * v.bytesPerCluster + inner < capacity v l := by
  have hlt : k < l.length := (List.getElem?_eq_some_iff.mp hk).1
  have hmul : (k + 1) * v.bytesPerCluster ≤ l.length * v.bytesPerCluster := Nat.mul_le_mul_right _ hlt
  rw [add_one_mul] at hmul
  rw [capacity]
  omega

/-- What the inner loop ends with: only the cluster is touched, and it holds a first part of the data,
on success all that fits. -/
structure Filled (v : Vol) (l : List Nat) (k c inner : Nat) (data : List UInt8) (d : Disk)
    (r : Option (List UInt8)) (d' : Disk) : Prop where
  other : ∀ n, ¬ InCluster v c n → d' n = d n
  part : ∃ m, Put v l (k * v.bytesPerCluster + inner) (data.take m) d d'
  done : ∀ rest ∈ r, rest = data.drop (v.bytesPerCluster - inner) ∧
    Put v l (k * v.bytesPerCluster + inner) (data.take (v.bytesPerCluster - inner)) d d'

omit hv hl hk in
lemma Filled.failed (h : ∀ n, ¬ InCluster v c n → d' n = d n)
    (hput : Put v l (k * v.bytesPerCluster + inner) (data.take m) d d') :
    Filled v l k c inner data d none d' :=
  ⟨h, ⟨m, hput⟩, nofun⟩

omit hv hl hk in
lemma Filled.untouched : Filled v l k c inner data d none d :=
  .failed (m := 0) (fun _ _ => rfl) (.refl v l _ d)

omit hv hl hk in
/-- The loop stops with the data behind the cluster. -/
lemma Filled.full (h : v.bytesPerCluster ≤ inner ∨ data = []) :
    Filled v l k c inner data d (some data) d := by
  have hrest : data = data.drop (v.bytesPerCluster - inner) ∧
      data.take (v.bytesPerCluster - inner) = [] := by
    rcases h with hfull | rfl
    · rw [Nat.sub_eq_zero_of_le hfull]
      exact ⟨rfl, rfl⟩
    · exact ⟨drop_nil.symm, take_nil⟩
  refine ⟨fun _ _ => rfl, ⟨0, .refl v l _ d⟩, ?_⟩
  rintro _ ⟨⟩
  refine ⟨hrest.1, ?_⟩
  rw [hrest.2]
  exact .refl v l _ d

omit hv hl hk in
/-- One round and what follows it. -/
lemma Filled.step {chunk : Nat} {d₁ : Disk} (hchunk : inner + chunk ≤ v.bytesPerCluster)
    (hlen : chunk ≤ data.length) (hother : ∀ n, ¬ InCluster v c n → d₁ n = d n)
    (hput : Put v l (k * v.bytesPerCluster + inner) (data.take chunk) d d₁)
    (h : Filled v l k c (inner + chunk) (data.drop chunk) d₁ r d') :
    Filled v l k c inner data d r d' := by
  have htrans : ∀ m, Put v l (k * v.bytesPerCluster + (inner + chunk)) ((data.drop chunk).take m) d₁ d' →
      Put v l (k * v.bytesPerCluster + inner) (data.take (chunk + m)) d d' := by
    intro m hput'
    rw [take_add]
    refine hput.trans ?_
    rwa [length_take, min_eq_left hlen, add_assoc]
  refine ⟨fun n hn => (h.other n hn).trans (hother n hn), ?_, fun rest hr => ?_⟩
  · obtain ⟨m, hput'⟩ := h.part
    exact ⟨chunk + m, htrans m hput'⟩
  · obtain ⟨hrest, hput'⟩ := h.done rest hr
    have hsub : v.bytesPerCluster - inner = chunk + (v.bytesPerCluster - (inner + chunk)) := by omega
    rw [hsub]
    exact ⟨by rw [hrest, drop_drop], htrans _ hput'⟩

lemma wp_writeInner (fuel : Nat) : ∀ (inner : Nat) (data : List UInt8) (d : Disk),
    data.length ≤ fuel → inner ≤ v.bytesPerCluster →
    (writeInner v (clusterToSector v c) fuel inner data).Wp Fails d (Filled v l k c inner data d) := by
  induction fuel with
  | zero =>
    intro inner data d hfuel _
    exact .full (.inr (length_eq_zero_iff.mp (Nat.le_zero.mp hfuel)))
  | succ fuel ih =>
    intro inner data d hfuel hin
    rw [writeInner]
    split
    · rename_i hstop
      exact .full hstop
    rename_i hgo
    obtain ⟨hlt, hne⟩ := not_or.mp hgo
    replace hlt := Nat.not_le.mp hlt
    have hmod : (k * v.bytesPerCluster + inner) % 512 = inner % 512 := by
      rw [Vol.bytesPerCluster, ← mul_assoc]
      omega
    obtain ⟨hsec, hcluster⟩ := sector_eq hv hl hk hlt
    obtain ⟨n, hn⟩ : ∃ n, n = u32 (clusterToSector v c + inner / 512) := ⟨_, rfl⟩
    obtain ⟨chunk, hchunk⟩ : ∃ m, m = min (512 - inner % 512) data.length := ⟨_, rfl⟩
    rw [← hn] at hsec hcluster
    have hle : inner + chunk ≤ v.bytesPerCluster := by
      simp only [Vol.bytesPerCluster] at *
      omega
    have hother : ∀ b m, ¬ InCluster v c m → update d n b m = d m :=
      fun b m hm => update_of_ne (fun heq : m = n => hm (heq ▸ hcluster)) _ _
    -- what follows the write of the sector, refused or not
    have hwrite : ∀ b : Sector, (∀ i, i < 512 → b i =
          if inner % 512 ≤ i ∧ i < inner % 512 + chunk then data.getD (i - inner % 512) 0
          else d n i) →
        (BlockProg.write n b fun ok =>
          if ok then writeInner v (clusterToSector v c) fuel (inner + chunk) (data.drop chunk)
          else .ret none).Wp Fails d (Filled v l k c inner data d) := by
      intro b hb
      have hput : Put v l (k * v.bytesPerCluster + inner) (data.take chunk) d
          (update d n b) := by
        rw [hsec]
        exact put_chunk hv hl (lt_capacity_of_inner hk hlt) (by rw [hmod]; omega) (by omega)
          (by rwa [hmod, ← hsec])
      refine ⟨?_, fun _ => ⟨.untouched, .failed (hother b) hput⟩⟩
      refine (ih _ _ _ (by rw [length_drop]; omega) hle).mono fun r d' h => ?_
      exact h.step hle (by omega) (hother b) hput
    dsimp only
    rw [← hn, ← hchunk]
    split
    · exact ⟨hwrite _ fun i _ => rfl, fun _ => .untouched⟩
    · refine hwrite _ fun i hi => ?_
      rw [patch, if_pos (by omega), if_pos (by omega)]
      congr 1
      omega

end

/-- The entries of the table are the same. -/
def SameTable (v : Vol) (d d' : Disk) : Prop :=
  ∀ c, 2 ≤ c → c < v.entries → fatVal v d' c = fatVal v d c

lemma SameTable.grown (h : SameTable v d d') (l : List Nat) : Grown v d d' l [] ∧ Tidy v d d' [] := by
  refine ⟨⟨fun c h2 hc _ _ => h c h2 hc, fun c h2 hc hne => (h c h2 hc).symm ▸ hne,
    forall_mem_nil _, forall_mem_nil _⟩, ?_⟩
  intro c h2 hc hfree hused
  rw [h c h2 hc] at hused
  exact absurd hfree hused

lemma sameTable_of_cluster (hv : v.Shaped) (h2 : 2 ≤ c) (hc : c < v.entries)
    (h : ∀ n, ¬ InCluster v c n → d' n = d n) :
    SameTable v d d' ∧ TableSpared v d d' := by
  have hbelow : ∀ n, n < v.dataStart → d' n = d n := fun n hn =>
    h n fun hin => Nat.not_le.mpr hn (hin.bounds hv h2 hc).1
  have hraw : ∀ c', c' < v.entries → d' (fatSector v c') = d (fatSector v c') := fun c' hc' =>
    hbelow _ (fatSector_lt hv hc')
  refine ⟨fun c' _ hc' => by rw [fatVal, fatVal, hraw c' hc'],
    fun n hn => hbelow n (lt_trans hn hv.table), fun c' hc' => by rw [fatRaw, fatRaw, hraw c' hc'],
    fun c' hc' => ?_⟩
  rw [fatVal, fatVal, hraw c' (by omega)]

/-- What `fat32_write_at` ends with. The chain has grown, and only its sectors were written; on success
every cluster taken is in it and the offset behind the last byte is inside. If no 32-bit offset wraps, a
first part of the data stands where it was to go, on success all of it. -/
structure Written (v : Vol) (d : Disk) (first : Nat) (l : List Nat) (offset : Nat)
    (data : List UInt8) (r : Option Nat) (d' : Disk) (new : List Nat) : Prop where
  chain : ChainAt v d' v.entries first (l ++ new)
  grown : Grown v d d' l new
  spared : TableSpared v d d'
  other : ∀ n, v.dataStart ≤ n → (∀ c ∈ l ++ new, ¬ InCluster v c n) → d' n = d n
  size : (l ++ new).length ≤ max l.length ((offset + data.length - 1) / v.bytesPerCluster + 1)
  tidy : ∀ e, r = some e → Tidy v d d' new
  inside : ∀ e, r = some e → data ≠ [] → e ≤ capacity v (l ++ new)
  part : offset + data.length < 2 ^ 32 →
    ∃ m, Put v (l ++ new) offset (data.take m) d d'
  put : ∀ e, r = some e → offset + data.length < 2 ^ 32 →
    e = offset + data.length ∧ Put v (l ++ new) offset data d d'

section
variable (hv : v.Shaped) {Fails : Transfer → Prop} {first offset : Nat} {l new' : List Nat}
  {rest : List UInt8} {d₁ d₂ : Disk}

lemma bytesPerCluster_pos (hv : v.Shaped) : 0 < v.bytesPerCluster :=
  Nat.mul_pos hv.spc (by omega)

lemma Written.failed (chain : ChainAt v d' v.entries first (l ++ new)) (grown : Grown v d d' l new)
    (spared : TableSpared v d d')
    (other : ∀ n, v.dataStart ≤ n → (∀ c ∈ l ++ new, ¬ InCluster v c n) → d' n = d n)
    (size : (l ++ new).length ≤ max l.length ((offset + data.length - 1) / v.bytesPerCluster + 1))
    (part : ∃ m, Put v (l ++ new) offset (data.take m) d d') :
    Written v d first l offset data none d' new :=
  ⟨chain, grown, spared, other, size, nofun, nofun, fun _ => part, nofun⟩

lemma Written.nil (hl : ChainAt v d v.entries first l) :
    Written v d first l offset [] (some offset) d [] where
  chain := (append_nil l).symm ▸ hl
  grown := .refl v d l
  spared := .refl v d
  other := fun _ _ _ => rfl
  size := by
    rw [append_nil]
    omega
  tidy := fun _ _ => .refl v d
  inside := fun _ _ h => absurd rfl h
  part := fun _ => ⟨0, .refl v _ offset d⟩
  put := by
    rintro _ ⟨⟩ _
    exact ⟨rfl, .refl v _ offset d⟩

/-- The first round stays within the clusters the whole write needs. -/
lemma Sought.size_le {r : Option Nat}
    (hs : Sought v d first l (offset / v.bytesPerCluster) r d₁ new) (hne : data ≠ []) :
    (l ++ new).length ≤ max l.length ((offset + data.length - 1) / v.bytesPerCluster + 1) := by
  have hpos := length_pos_iff.mpr hne
  have hdiv : offset / v.bytesPerCluster ≤ (offset + data.length - 1) / v.bytesPerCluster :=
    Nat.div_le_div_right (by omega)
  have := hs.size
  omega

include hv

/-- The disk after a seek and a round of the inner loop: the chain stands, and the table has what the
seek left. -/
lemma Sought.filled (hs : Sought v d first l k (some c) d₁ new)
    (hf : Filled v (l ++ new) k c inner data d₁ r d₂) :
    ChainAt v d₂ v.entries first (l ++ new) ∧ Grown v d d₂ l new ∧ TableSpared v d d₂ ∧
      Tidy v d d₂ new ∧ ∀ n, v.dataStart ≤ n → (∀ c ∈ l ++ new, ¬ InCluster v c n) → d₂ n = d n := by
  obtain ⟨hget, htidy⟩ := hs.found c rfl
  have hmem := mem_of_getElem? hget
  have hrange := hs.chain.range c hmem
  obtain ⟨htable, hspared⟩ := sameTable_of_cluster hv hrange.1 hrange.2 hf.other
  obtain ⟨hg, ht⟩ := htable.grown (l ++ new)
  have hgrown := hs.grown.trans htidy hg
  have htidy' := htidy.trans ht
  rw [append_nil] at hgrown htidy'
  refine ⟨hs.chain.congr fun c hc => ?_, hgrown, hs.table.spared.trans hspared, htidy',
    fun n hn hout => ?_⟩
  · exact htable c (hs.chain.range c hc).1 (hs.chain.range c hc).2
  · rw [hf.other n (hout c hmem), hs.data n hn]

/-- One round of the outer loop and what follows it. -/
lemma Written.step {r : Option Nat} (hne : data ≠ [])
    (hs : Sought v d first l (offset / v.bytesPerCluster) (some c) d₁ new)
    (hf : Filled v (l ++ new) (offset / v.bytesPerCluster) c (offset % v.bytesPerCluster) data d₁
      (some rest) d₂)
    (h : Written v d₂ first (l ++ new) (u32 (offset + (data.length - rest.length))) rest r d' new') :
    Written v d first l offset data r d' (new ++ new') := by
  obtain ⟨hchain, hgrown, hspared, htidy, hother⟩ := hs.filled hv hf
  obtain ⟨hrest, hput⟩ := hf.done rest rfl
  have hb := bytesPerCluster_pos hv
  have hdm := Nat.div_add_mod offset v.bytesPerCluster
  have hmod := Nat.mod_lt offset hb
  have hlen : rest.length = data.length - (v.bytesPerCluster - offset % v.bytesPerCluster) := by
    rw [hrest, length_drop]
  obtain ⟨m, hm⟩ : ∃ m, m = data.length - rest.length := ⟨_, rfl⟩
  rw [← hm] at h
  have hstart : offset / v.bytesPerCluster * v.bytesPerCluster + offset % v.bytesPerCluster = offset := by
    rw [mul_comm]
    exact hdm
  -- the part written in this round ends inside the chain
  have hend : offset + m ≤ capacity v (l ++ new) := by
    have hk := (List.getElem?_eq_some_iff.mp (hs.found c rfl).1).1
    have hmul : (offset / v.bytesPerCluster + 1) * v.bytesPerCluster ≤
        (l ++ new).length * v.bytesPerCluster := Nat.mul_le_mul_right _ hk
    rw [add_one_mul] at hmul
    rw [capacity]
    omega
  have hu : u32 (offset + m) ≤ offset + m := Nat.mod_le _ _
  have happ : l ++ (new ++ new') = l ++ new ++ new' := (append_assoc ..).symm
  have htake : (data.take (v.bytesPerCluster - offset % v.bytesPerCluster)).length = m := by
    rw [length_take]
    omega
  have hcl : Clusters v (l ++ new ++ new') := h.chain.clusters hv
  rw [hstart] at hput
  have hfirst := (hput.of_sameData hv (hs.chain.clusters hv) hs.data).grow hv hcl
    (by rw [htake]; exact hend)
  refine ⟨happ ▸ h.chain, hgrown.trans htidy h.grown, hspared.trans h.spared, fun n hn hout => ?_,
    ?_, ?_, ?_, ?_, ?_⟩
  · rw [happ] at hout
    rw [h.other n hn hout, hother n hn fun c hc => hout c (mem_append_left _ hc)]
  · have h1 := h.size
    have h2 := hs.size_le hne
    have h3 : (u32 (offset + m) + rest.length - 1) / v.bytesPerCluster ≤
        (offset + data.length - 1) / v.bytesPerCluster := Nat.div_le_div_right (by omega)
    rw [happ]
    omega
  · exact fun e he => htidy.trans (h.tidy e he)
  · intro e he _
    rw [happ]
    by_cases hnil : rest = []
    · -- nothing is left: the offset is that of this round
      have hlt : u32 (offset + m) < 2 ^ 32 := Nat.mod_lt _ (by omega)
      have heq := (h.put e he (by rw [hnil, length_nil]; exact hlt)).1
      rw [hnil, length_nil] at heq
      rw [capacity, length_append, add_mul]
      rw [capacity] at hend
      omega
    · exact h.inside e he hnil
  · intro hlt
    have hw : u32 (offset + m) = offset + m := Nat.mod_eq_of_lt (by omega)
    rw [hw] at h
    obtain ⟨m', hput'⟩ := h.part (by omega)
    refine ⟨v.bytesPerCluster - offset % v.bytesPerCluster + m', ?_⟩
    rw [happ, take_add, ← hrest]
    exact hfirst.trans (by rwa [htake])
  intro e he hlt
  have hw : u32 (offset + m) = offset + m := Nat.mod_eq_of_lt (by omega)
  rw [hw] at h
  obtain ⟨heq, hput'⟩ := h.put e he (by omega)
  refine ⟨by omega, ?_⟩
  rw [happ, ← take_append_drop (v.bytesPerCluster - offset % v.bytesPerCluster) data, ← hrest]
  exact hfirst.trans (by rwa [htake])

lemma wp_writeLoop (hread : TableReads v Fails) (fuel : Nat) : ∀ (offset : Nat)
    (data : List UInt8) (d : Disk) (l : List Nat), data.length ≤ fuel →
    ChainAt v d v.entries first l →
    (writeLoop v first fuel offset data).Wp Fails d fun r d' =>
      ∃ new, Written v d first l offset data r d' new := by
  induction fuel with
  | zero =>
    intro offset data d l hfuel hl
    obtain rfl := length_eq_zero_iff.mp (Nat.le_zero.mp hfuel)
    exact ⟨[], .nil hl⟩
  | succ fuel ih =>
    intro offset data d l hfuel hl
    cases data with
    | nil => exact ⟨[], .nil hl⟩
    | cons x data =>
      have hne : x :: data ≠ [] := cons_ne_nil x data
      rw [writeLoop, BlockProg.wp_bind]
      refine (wp_fatSeekCluster hv hread hl offset).mono fun r d₁ ⟨new, hs, hinner⟩ => ?_
      cases r with
      | none =>
        exact ⟨new, .failed hs.chain hs.grown hs.table.spared (fun n hn _ => hs.data n hn)
          (hs.size_le hne)
          ⟨0, (Put.refl v _ _ d₁).of_sameData hv (hs.chain.clusters hv) hs.data⟩⟩
      | some p =>
        obtain ⟨c, inner⟩ := p
        obtain rfl : inner = offset % v.bytesPerCluster := hinner _ rfl
        have hmod := Nat.mod_lt offset (bytesPerCluster_pos hv)
        rw [BlockProg.wp_bind]
        refine (wp_writeInner hv (hs.chain.clusters hv) (hs.found c rfl).1 _ _ _ d₁
          (le_refl _) (le_of_lt hmod)).mono fun r d₂ hf => ?_
        obtain ⟨hchain, hgrown, hspared, -, hother⟩ := hs.filled hv hf
        cases r with
        | none =>
          obtain ⟨m, hput⟩ := hf.part
          rw [mul_comm, Nat.div_add_mod] at hput
          exact ⟨new, .failed hchain hgrown hspared hother (hs.size_le hne)
            ⟨m, hput.of_sameData hv (hs.chain.clusters hv) hs.data⟩⟩
        | some rest =>
          have hlen : rest.length ≤ fuel := by
            rw [(hf.done rest rfl).1, length_drop]
            omega
          refine (ih _ rest d₂ (l ++ new) hlen hchain).mono fun r d' ⟨new', h⟩ => ?_
          exact ⟨new ++ new', h.step hv hne hs hf⟩

/-- **Writing.** With a table that can be read, `fat32_write_at` grows the chain and writes in it. -/
lemma wp_fat32WriteAt (hread : TableReads v Fails) (hl : ChainAt v d v.entries first l)
    (offset : Nat) (data : List UInt8) :
    (fat32WriteAt v first offset data).Wp Fails d fun r d' =>
      ∃ new, Written v d first l offset data r d' new := by
  have hfirst := (hl.range first hl.first_mem).1
  rw [fat32WriteAt, if_neg (by omega)]
  exact wp_writeLoop hv hread data.length offset data d l (le_refl _) hl

end

/-! ## Reading -/

/-- The bytes of a file from `start` on. -/
def fileBytes (v : Vol) (d : Disk) (l : List Nat) (start count : Nat) : List UInt8 :=
  (range count).map fun j => fileByte v d l (start + j)

section
variable (hv : v.Shaped) {Fails : Transfer → Prop} {first : Nat} {l : List Nat}

lemma fileBytes_append (start m n : Nat) :
    fileBytes v d l start m ++ fileBytes v d l (start + m) n = fileBytes v d l start (m + n) := by
  simp only [fileBytes, range_add, map_append, map_map]
  refine congrArg (_ ++ ·) (map_congr_left fun j _ => ?_)
  rw [Function.comp, add_assoc]

/-- The rest of a read that is cut at both its length and the end of the data. -/
lemma fileBytes_min_append (start remaining b n : Nat) : fileBytes v d l start (min remaining b) ++
        fileBytes v d l (start + b) (min (remaining - min remaining b) n) =
      fileBytes v d l start (min remaining (n + b)) := by
  by_cases hbig : b ≤ remaining
  · have hcount : b + min (remaining - b) n = min remaining (n + b) := by omega
    rw [min_eq_right hbig, fileBytes_append, hcount]
  · have h0 : remaining - min remaining b = 0 := by omega
    rw [h0, Nat.zero_min, min_eq_left (by omega), min_eq_left (by omega)]
    simp [fileBytes]

variable (v l) in
/-- What a read ends with: the bytes of the file, or nothing if a sector could not be read. -/
structure Delivered (Fails : Transfer → Prop) (d : Disk) (start count : Nat)
    (r : Option (List UInt8)) (d' : Disk) : Prop where
  disk : d' = d
  bytes : ∀ bytes ∈ r, bytes = fileBytes v d l start count
  refused : r = none → ∃ n, Fails (.read n)

lemma Delivered.failed (h : ∃ n, Fails (.read n)) :
    Delivered v l Fails d start count none d := ⟨rfl, nofun, fun _ => h⟩

lemma Delivered.of_eq {bytes : List UInt8} (h : bytes = fileBytes v d l start count) :
    Delivered v l Fails d start count (some bytes) d := by
  refine ⟨rfl, ?_, nofun⟩
  rintro _ ⟨⟩
  exact h

lemma Delivered.nil (h : count = 0) :
    Delivered v l Fails d start count (some []) d := .of_eq (by rw [h]; rfl)

include hv

lemma wp_readCluster (hl : Clusters v l) (hk : l[k]? = some c) (n : Nat) :
    ∀ (s remaining : Nat), s + n = v.spc →
    (readCluster (clusterToSector v c) n s remaining).Wp Fails d
      (Delivered v l Fails d (k * v.bytesPerCluster + s * 512) (min remaining (n * 512))) := by
  induction n with
  | zero =>
    intro s remaining _
    exact .nil (by omega)
  | succ n ih =>
    intro s remaining hs
    rw [readCluster]
    split
    · exact .nil (by omega)
    have hlt : s * 512 < v.bytesPerCluster := by
      rw [Vol.bytesPerCluster]
      omega
    have hsec := (sector_eq hv hl hk hlt).1
    rw [Nat.mul_div_cancel _ (by omega)] at hsec
    refine ⟨?_, fun hf => .failed ⟨_, hf⟩⟩
    dsimp only
    rw [BlockProg.wp_bind]
    refine (ih (s + 1) _ (by omega)).mono fun r d' ⟨hd, hr, hnone⟩ => ?_
    subst hd
    cases r with
    | none => exact .failed (hnone rfl)
    | some rest =>
      refine .of_eq ?_
      have hfirst : (range (min remaining 512)).map
          (d' (u32 (clusterToSector v c + s))) =
          fileBytes v d' l (k * v.bytesPerCluster + s * 512) (min remaining 512) := by
        refine map_congr_left fun j hj => ?_
        rw [mem_range] at hj
        rw [hsec, fileByte]
        have hmod : (k * v.bytesPerCluster + s * 512 + j) % 512 = j := by
          rw [Vol.bytesPerCluster, ← mul_assoc]
          omega
        have hdiv : (k * v.bytesPerCluster + s * 512 + j) / 512 =
            (k * v.bytesPerCluster + s * 512) / 512 := by
          omega
        rw [hmod, hdiv]
      rw [hfirst, hr rest rfl, add_one_mul s, ← add_assoc, add_one_mul n]
      exact fileBytes_min_append _ _ _ _

lemma wp_readLoop (hread : TableReads v Fails) (hl : ChainAt v d v.entries first l) (fuel : Nat) :
    ∀ (pre post : List Nat) (c remaining : Nat), Standing l pre post c → remaining ≤ fuel →
    (readLoop v fuel c remaining).Wp Fails d
      (Delivered v l Fails d (pre.length * v.bytesPerCluster)
        (min remaining (post.length * v.bytesPerCluster))) := by
  induction fuel with
  | zero =>
    intro pre post c remaining _ hfuel
    exact .nil (by omega)
  | succ fuel ih =>
    intro pre post c remaining hat hfuel
    have hsplit := hat.split
    rw [readLoop]
    cases post with
    | nil =>
      rw [if_pos (Or.inr (hat.last rfl))]
      exact .nil (by rw [length_nil]; omega)
    | cons x xs =>
      obtain rfl : c = x := hat.here x rfl
      have hmem : c ∈ l := by simp [hsplit]
      have hnot := hl.not_end hv (le_refl _) c hmem
      split
      · rename_i hstop
        have h0 : remaining = 0 := hstop.resolve_right hnot
        exact .nil (by omega)
      rename_i hgo
      have hk : l[pre.length]? = some c := by simp [hsplit]
      rw [BlockProg.wp_bind]
      refine (wp_readCluster hv (hl.clusters hv) hk v.spc 0 remaining (by omega)).mono
        fun r d₁ ⟨hd, hr, hnone⟩ => ?_
      subst hd
      cases r with
      | none => exact .failed (hnone rfl)
      | some bytes =>
        have hbytes := hr bytes rfl
        have hlen : bytes.length = min remaining v.bytesPerCluster := by
          rw [hbytes, fileBytes, length_map, length_range]
          rfl
        have hpos := bytesPerCluster_pos hv
        rw [BlockProg.wp_bind]
        refine wp_fatNext ?_ fun hf => absurd hf (hread c (hl.range c hmem).2)
        rw [BlockProg.wp_bind]
        refine (ih (pre ++ [c]) xs _ _ (hl.standing_next hat) (by omega)).mono
          fun r d₂ ⟨hd, hr', hnone'⟩ => ?_
        subst hd
        cases r with
        | none => exact .failed (hnone' rfl)
        | some rest =>
          refine .of_eq ?_
          have hstart : (pre ++ [c]).length * v.bytesPerCluster =
              pre.length * v.bytesPerCluster + v.bytesPerCluster := by
            rw [length_append, length_singleton, add_one_mul]
          have hcons : (c :: xs).length * v.bytesPerCluster =
              xs.length * v.bytesPerCluster + v.bytesPerCluster := by
            rw [length_cons, add_one_mul]
          rw [hr' rest rfl, hlen, hbytes, hstart, hcons]
          exact fileBytes_min_append _ _ _ _

/-- **Reading.** With a table that can be read, a successful `fat32_read` delivers the bytes of the
chain. -/
lemma wp_fat32Read (hread : TableReads v Fails) (hl : ChainAt v d v.entries first l) (size : Nat) :
    (fat32Read v first size).Wp Fails d (Delivered v l Fails d 0 (min size (capacity v l))) := by
  have h := wp_readLoop hv hread hl size [] l first size hl.standing (le_refl _)
  rwa [length_nil, zero_mul] at h

end
end FermiOs.Fat32
