import FermiOs.Fs.Fat32.Model

/-!
# The file allocation table

What the programs of `Fs/Fat32/Model.lean` do to the table, stated on the values of its entries. The
table lies in front of the data, so a table entry and a data sector never share a sector, and two
entries never share a byte.
-/

namespace FermiOs.Fat32
open Library Function

/-! ## Bytes -/

section
variable {b : Sector} {off off' x : Nat}

lemma toNat_ofNat (x : Nat) : (UInt8.ofNat x).toNat = x % 256 := by simp

lemma setLe32_at (b : Sector) (off x : Nat) {k : Nat} (hk : k < 4) :
    setLe32 b off x (off + k) = UInt8.ofNat (x / 256 ^ k) := by
  rw [setLe32, if_pos (by omega), Nat.add_sub_cancel_left]

lemma setLe32_of_ne {i : Nat} (h : i < off ∨ off + 4 ≤ i) : setLe32 b off x i = b i := by
  rw [setLe32, if_neg (by omega)]

lemma le32_setLe32 (b : Sector) (off : Nat) {x : Nat} (hx : x < 2 ^ 32) :
    le32 (setLe32 b off x) off = x := by
  have h0 := setLe32_at b off x (k := 0) (by omega)
  have h1 := setLe32_at b off x (k := 1) (by omega)
  have h2 := setLe32_at b off x (k := 2) (by omega)
  have h3 := setLe32_at b off x (k := 3) (by omega)
  rw [add_zero] at h0
  simp only [le32, le16, add_assoc, Nat.reduceAdd, h0, h1, h2, h3, toNat_ofNat]
  omega

lemma le32_setLe32_of_ne (h : off' + 4 ≤ off ∨ off + 4 ≤ off') :
    le32 (setLe32 b off x) off' = le32 b off' := by
  simp only [le32, le16, add_assoc, Nat.reduceAdd]
  rw [setLe32_of_ne (i := off') (by omega), setLe32_of_ne (i := off' + 1) (by omega),
    setLe32_of_ne (i := off' + 2) (by omega), setLe32_of_ne (i := off' + 3) (by omega)]

lemma le16_lt (b : Nat → UInt8) (off : Nat) : le16 b off < 2 ^ 16 := by
  have h0 := (b off).toNat_lt
  have h1 := (b (off + 1)).toNat_lt
  simp only [le16]
  omega

lemma le32_lt (b : Nat → UInt8) (off : Nat) : le32 b off < 2 ^ 32 := by
  have h0 := le16_lt b off
  have h1 := le16_lt b (off + 2)
  simp only [le32]
  omega

end

/-! ## Entries -/

/-- The shape of a volume: the table in front of the data, at least one sector in a cluster, cluster
numbers below the end marks, and every entry of the table naming sectors with 32-bit numbers. -/
structure Vol.Shaped (v : Vol) : Prop where
  table : v.fatStart < v.dataStart
  spc : 0 < v.spc
  numbers : v.entries ≤ fatEoc
  fits : v.dataStart + v.entries * v.spc ≤ 2 ^ 32

section
variable (v : Vol) (d : Disk) (c : Nat)

/-- The value of a table entry. -/
def fatVal : Nat := le32 (d (fatSector v c)) (fatOffset c) % 2 ^ 28

/-- All bits of a table entry. -/
def fatRaw : Nat := le32 (d (fatSector v c)) (fatOffset c)

/-- The disk after `fat_write`. -/
def setFat (x : Nat) : Disk :=
  update d (fatSector v c) (setLe32 (d (fatSector v c)) (fatOffset c)
    (le32 (d (fatSector v c)) (fatOffset c) / 2 ^ 28 * 2 ^ 28 + x % 2 ^ 28))

end

section
variable {v : Vol} (hv : v.Shaped) {d : Disk} {c c' x : Nat}
include hv

lemma entries_ge : 128 ≤ v.entries := by
  have := hv.table
  simp only [Vol.entries]
  omega

lemma dataStart_lt : v.dataStart < 2 ^ 32 := by
  have h1 := hv.fits
  have h2 := Nat.mul_pos (lt_of_lt_of_le (by omega) (entries_ge hv)) hv.spc
  omega

variable (hc : c < v.entries)
include hc

lemma fatOffset_eq : fatOffset c = c % 128 * 4 := by
  have hnum := lt_of_lt_of_le hc hv.numbers
  rw [fatOffset, u32]
  omega

lemma fatSector_eq : fatSector v c = v.fatStart + c / 128 := by
  obtain ⟨h3, h4, h1, h2⟩ := hv
  have h5 : v.entries ≤ v.entries * v.spc := Nat.le_mul_of_pos_right _ h4
  simp only [fatSector, u32, fatEoc, Vol.entries] at *
  omega

lemma fatSector_lt : fatSector v c < v.dataStart := by
  rw [fatSector_eq hv hc]
  simp only [Vol.entries] at hc
  omega

lemma fatRaw_setFat (hc' : c' < v.entries) : fatRaw v (setFat v d c x) c' =
      if c' = c then fatRaw v d c / 2 ^ 28 * 2 ^ 28 + x % 2 ^ 28 else fatRaw v d c' := by
  have hlt : le32 (d (fatSector v c)) (fatOffset c) / 2 ^ 28 * 2 ^ 28 + x % 2 ^ 28 < 2 ^ 32 := by
    have := le32_lt (d (fatSector v c)) (fatOffset c)
    omega
  rw [fatRaw, setFat]
  by_cases heq : c' = c
  · subst heq
    rw [if_pos rfl, update_self, le32_setLe32 _ _ hlt, ← fatRaw]
  rw [if_neg heq]
  by_cases hsec : fatSector v c' = fatSector v c
  · -- two entries of one sector lie apart
    rw [hsec, update_self, le32_setLe32_of_ne, ← hsec, ← fatRaw]
    rw [fatOffset_eq hv hc, fatOffset_eq hv hc']
    rw [fatSector_eq hv hc, fatSector_eq hv hc'] at hsec
    omega
  · rw [update_of_ne hsec, ← fatRaw]

lemma fatVal_setFat (hc' : c' < v.entries) :
    fatVal v (setFat v d c x) c' = if c' = c then x % 2 ^ 28 else fatVal v d c' := by
  have hraw := fatRaw_setFat hv hc hc' (d := d) (x := x)
  rw [fatVal, ← fatRaw, hraw]
  split
  · omega
  · rfl

/-- Data sectors are not the table's. -/
lemma setFat_data {n : Nat} (hn : v.dataStart ≤ n) : setFat v d c x n = d n := by
  have := fatSector_lt hv hc
  exact update_of_ne (by omega) _ _

/-- Writing a data sector leaves the table as it is. -/
lemma fatVal_update {n : Nat} (hn : v.dataStart ≤ n) (b : Sector) :
    fatVal v (update d n b) c = fatVal v d c := by
  have := fatSector_lt hv hc
  rw [fatVal, update_of_ne (by omega), ← fatVal]

end

/-! ## The programs on the table -/

/-- The mark `fat_alloc_cluster` writes. -/
def fatMark : Nat := 0x0FFFFFFF

section
variable {v : Vol} {Fails : Transfer → Prop} {d : Disk} {c x : Nat}

lemma wp_fatNext {Q : Nat → Disk → Prop} (h : Q (fatVal v d c) d)
    (hfail : Fails (.read (fatSector v c)) → Q fatEoc d) : (fatNext v c).Wp Fails d Q := ⟨h, hfail⟩

lemma wp_fatWrite {Q : Bool → Disk → Prop} (h : Q true (setFat v d c x))
    (hfail : (∃ t, Fails t) → Q false d ∧ Q false (setFat v d c x)) : (fatWrite v c x).Wp Fails d Q :=
  ⟨⟨h, fun hf => hfail ⟨_, hf⟩⟩, fun hf => (hfail ⟨_, hf⟩).1⟩

/-- A cluster that `fat_alloc_cluster` may take: free, with all before it in use. -/
structure FirstFree (v : Vol) (d : Disk) (c : Nat) : Prop where
  lower : 2 ≤ c
  upper : c < v.entries
  free : fatVal v d c = 0
  first : ∀ c', 2 ≤ c' → c' < c → fatVal v d c' ≠ 0

/-- What `fat_alloc_cluster` ends with: the first free cluster is marked, and reported unless a
transfer was refused; or nothing happened, because a transfer was refused or no cluster is free. -/
inductive Alloc (v : Vol) (Fails : Transfer → Prop) (d : Disk) : Nat → Disk → Prop
  | taken {c : Nat} (h : FirstFree v d c) : Alloc v Fails d c (setFat v d c fatMark)
  | refused (c : Nat) (h : FirstFree v d c) (hf : ∃ t, Fails t) : Alloc v Fails d 0 (setFat v d c fatMark)
  | none (hf : (∃ t, Fails t) ∨ ∀ c, 2 ≤ c → c < v.entries → fatVal v d c ≠ 0) : Alloc v Fails d 0 d

lemma wp_allocFrom (hv : v.Shaped) : ∀ (n c : Nat), 2 ≤ c → c ≤ v.entries → v.entries ≤ n + c →
    (∀ c', 2 ≤ c' → c' < c → fatVal v d c' ≠ 0) →
    (allocFrom v n c).Wp Fails d (Alloc v Fails d) := by
  intro n
  induction n with
  | zero =>
    intro c h2 hc hn hused
    exact .none (.inr fun c' h1 h3 => hused c' h1 (by omega))
  | succ n ih =>
    intro c h2 hc hn hused
    rw [allocFrom]
    split_ifs with hsec
    · refine .none (Or.inr fun c' h1 h3 => hused c' h1 (lt_of_lt_of_le h3 ?_))
      by_contra hlt
      rw [fatSector_eq hv (by omega)] at hsec
      have h4 := hv.table
      simp only [Vol.entries] at hlt
      omega
    have hlt : c < v.entries := by
      -- the sector behind the table is the first of the data
      have h1 := hv.numbers
      have h3 := hv.table
      have h4 : v.dataStart < 2 ^ 32 := dataStart_lt hv
      simp only [fatSector, u32, Vol.entries, fatEoc] at *
      omega
    refine ⟨?_, fun hf => .none (.inl ⟨_, hf⟩)⟩
    have hval : fatVal v d c = le32 (d (fatSector v c)) (fatOffset c) % 2 ^ 28 := rfl
    dsimp only
    rw [← hval]
    split_ifs with hfree
    · have hff : FirstFree v d c := ⟨h2, hlt, hfree, hused⟩
      rw [BlockProg.wp_bind]
      exact wp_fatWrite (.taken hff) fun hf => ⟨.none (.inl hf), .refused c hff hf⟩
    refine ih (c + 1) (by omega) (by omega) (by omega) fun c' h1 h3 => ?_
    rcases Nat.lt_succ_iff_lt_or_eq.mp h3 with hc' | rfl
    · exact hused c' h1 hc'
    · exact hfree

lemma wp_fatAllocCluster (hv : v.Shaped) : (fatAllocCluster v).Wp Fails d (Alloc v Fails d) := by
  refine wp_allocFrom hv v.entries 2 (le_refl 2) ?_ (by omega) fun c' h1 h2 => absurd h2 (by omega)
  have := entries_ge hv
  omega

end
end FermiOs.Fat32
