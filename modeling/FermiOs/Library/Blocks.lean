import FermiOs.Library.Bytes
import FermiOs.Library.Links
import FermiOs.Library.Segments

/-!
# Heap blocks in memory

A heap is a list of blocks. A block is a header at an address and the payload behind it, and the
headers are linked. How a header is laid out is a parameter (`HeaderKind`); all that is asked is that
it can be read off the bytes of the header. `Chain` says that the blocks of a list are linked one
after the other in memory. What the blocks cover is the business of `Segments`: `Recut` relates two
lists that cover the same bytes, each byte once.

An operation of an allocator rewrites a few neighbouring blocks. Since the blocks are apart, the
chains before and behind them survive any store inside them (`Chain.keep`), so that a proof about an
operation looks at the rewritten blocks only.
-/

namespace FermiOs.Library
open List Function

/-- A block: where its header is, how large its payload is, and whether it is free. -/
structure Block where
  addr : Nat
  size : Nat
  free : Bool
  deriving DecidableEq

variable {a b c : Block} {e : Nat × Nat} {k n : Nat} {next : Nat → Nat}

lemma Block.ne_of_free (ha : a.free = false) (hb : b.free = true) : a ≠ b := by
  rintro rfl
  rw [hb] at ha
  cases ha

/-- A layout of headers: their length, and when the header of a block, with the addresses of the
blocks before and behind it, is in memory. -/
structure HeaderKind where
  len : Nat
  len_pos : 0 < len
  Shows : Bytes → Block → Nat → Nat → Prop
  frame : ∀ {m m' : Bytes} {b : Block} {before next : Nat},
    (∀ x, b.addr ≤ x → x < b.addr + len → m' x = m x) → Shows m b before next → Shows m' b before next

namespace HeaderKind

/-- For headers of 32 bytes. -/
lemma pos_of_32 : 0 < 32 := by decide

variable (K : HeaderKind)

/-- The address the allocator hands out. -/
def payload (b : Block) : Nat := b.addr + K.len

/-- The end of a block. -/
def stop (b : Block) : Nat := b.addr + K.len + b.size

/-- What a block covers. -/
def seg : SegKind Block Unit := ⟨Block.addr, K.stop, fun _ _ => ()⟩

/-- The number of bytes of a list of blocks. -/
def total (bs : List Block) : Nat := (bs.map fun b => K.len + b.size).sum

/-- The blocks are linked: `p` is where the first one is expected and `q` what the last one links to,
`before` is what the first one links back to and `last` the block to which whatever comes next links
back. -/
def Chain (m : Bytes) : Nat → Nat → List Block → Nat → Nat → Prop
  | before, p, [], q, last => p = q ∧ before = last
  | before, p, b :: bs, q, last =>
    p = b.addr ∧ ∃ n, K.Shows m b before n ∧ Chain m b.addr n bs q last

variable {K} {m m' : Bytes} {before p q last : Nat} {bs xs ys l r : List Block}

@[simp] lemma total_nil : K.total [] = 0 := rfl

@[simp] lemma total_cons (b : Block) (bs : List Block) :
    K.total (b :: bs) = K.len + b.size + K.total bs := by
  rw [total, map_cons, sum_cons, ← total]

@[simp] lemma total_append (xs ys : List Block) : K.total (xs ++ ys) = K.total xs + K.total ys := by
  rw [total, map_append, sum_append, ← total, ← total]

/-- Every block takes at least a byte, which bounds their number. -/
lemma length_le_total (bs : List Block) : bs.length ≤ K.total bs := by
  induction bs with
  | nil => exact le_refl 0
  | cons b bs ih =>
    have := K.len_pos
    rw [total_cons, length_cons]
    omega

/-! ## Chains -/

lemma chain_append : K.Chain m before p (xs ++ ys) q last ↔
    ∃ r mid, K.Chain m before p xs r mid ∧ K.Chain m mid r ys q last := by
  induction xs generalizing before p with
  | nil =>
    constructor
    · intro h
      exact ⟨p, before, ⟨rfl, rfl⟩, h⟩
    · rintro ⟨r, mid, ⟨rfl, rfl⟩, h⟩
      exact h
  | cons b xs ih =>
    constructor
    · rintro ⟨hp, n, hb, hrest⟩
      obtain ⟨r, mid, hxs, hys⟩ := ih.mp hrest
      exact ⟨r, mid, ⟨hp, n, hb, hxs⟩, hys⟩
    · rintro ⟨r, mid, ⟨hp, n, hb, hxs⟩, hys⟩
      exact ⟨hp, n, hb, ih.mpr ⟨r, mid, hxs, hys⟩⟩

/-- A chain depends on the bytes of its headers. -/
lemma Chain.congr (h : K.Chain m before p bs q last)
    (hm : ∀ b ∈ bs, ∀ x, b.addr ≤ x → x < b.addr + K.len → m' x = m x) :
    K.Chain m' before p bs q last := by
  induction bs generalizing before p with
  | nil => exact h
  | cons b bs ih =>
    obtain ⟨hp, n, hb, hrest⟩ := h
    exact ⟨hp, n, K.frame (hm b mem_cons_self) hb, ih hrest fun c hc => hm c (mem_cons_of_mem b hc)⟩

/-- Around one block of a chain. -/
lemma Chain.at_block (h : K.Chain m before p (l ++ b :: r) q last) :
    ∃ prev n, K.Chain m before p l b.addr prev ∧ K.Shows m b prev n ∧ K.Chain m b.addr n r q last := by
  obtain ⟨a, prev, hl, rfl, n, hb, hr⟩ := chain_append.mp h
  exact ⟨prev, n, hl, hb, hr⟩

/-- The links of a chain, forward. -/
lemma Chain.path (h : K.Chain m before p bs q last)
    (hnext : ∀ b ∈ bs, ∀ prev n, K.Shows m b prev n → next b.addr = n) :
    Path next p (bs.map Block.addr) q := by
  induction bs generalizing before p with
  | nil => exact h.1
  | cons b bs ih =>
    obtain ⟨hp, n, hb, hrest⟩ := h
    refine ⟨hp, ?_⟩
    rw [hnext b mem_cons_self _ _ hb]
    exact ih hrest fun c hc => hnext c (mem_cons_of_mem b hc)

/-- The links of a chain, backward. -/
lemma Chain.path_back {prev : Nat → Nat} (h : K.Chain m before p bs q last)
    (hprev : ∀ b ∈ bs, ∀ a n, K.Shows m b a n → prev b.addr = a) :
    Path prev last (bs.map Block.addr).reverse before := by
  induction bs generalizing before p with
  | nil => exact h.2.symm
  | cons b bs ih =>
    obtain ⟨-, n, hb, hrest⟩ := h
    rw [map_cons, reverse_cons]
    have htail := ih hrest fun c hc => hprev c (mem_cons_of_mem b hc)
    exact htail.append ⟨rfl, hprev b mem_cons_self _ _ hb⟩

/-- The last block of a chain, from behind. -/
lemma Chain.last_eq (h : K.Chain m before p (l ++ [b]) q last) : last = b.addr := by
  obtain ⟨prev, n, -, -, -, hlast⟩ := h.at_block
  exact hlast.symm

/-- **First fit** along the links: null if no free block is large enough, or the first that is. -/
theorem first_fit {test : Nat → Bool} (h : Path next p (bs.map Block.addr) 0) (h0 : test 0 = true)
    (htest : ∀ b ∈ bs, test b.addr = true ↔ b.free = true ∧ n ≤ b.size) (hlen : bs.length ≤ k) :
    (walk next test k p = 0 ∧ ∀ b ∈ bs, b.free = true → b.size < n) ∨
      ∃ l b r, bs = l ++ b :: r ∧ b.free = true ∧ n ≤ b.size ∧ walk next test k p = b.addr := by
  rw [walk_eq_find h h0 (by rwa [length_map]), find?_map]
  cases hf : bs.find? (test ∘ Block.addr) with
  | none =>
    refine .inl ⟨rfl, fun b hb hfree => Nat.lt_of_not_le fun hle => ?_⟩
    exact find?_eq_none.mp hf b hb ((htest b hb).mpr ⟨hfree, hle⟩)
  | some b =>
    have hmem := mem_of_find?_eq_some hf
    obtain ⟨l, r, hsplit⟩ := append_of_mem hmem
    obtain ⟨hfree, hle⟩ := (htest b hmem).mp (find?_some (p := test ∘ Block.addr) hf)
    exact .inr ⟨l, b, r, hsplit, hfree, hle, rfl⟩

/-! ## What blocks cover -/

lemma apart_middle (h : K.seg.Apart (l ++ b :: r)) :
    ∀ c ∈ l ++ r, K.stop c ≤ b.addr ∨ K.stop b ≤ c.addr := by
  have hfront := h.perm K.seg perm_middle
  intro c hc
  exact ((pairwise_cons.mp hfront).1 c hc).symm

/-- A chain survives a change of memory inside blocks that are apart from its own. -/
lemma Chain.keep (h : K.Chain m before p bs q last) (ys : List Block)
    (hapart : ∀ c ∈ bs, ∀ y ∈ ys, K.stop c ≤ y.addr ∨ K.stop y ≤ c.addr)
    (hm : ∀ x, (∀ y ∈ ys, ¬ K.seg.Covers y x) → m' x = m x) :
    K.Chain m' before p bs q last := by
  refine h.congr fun c hc x hlo hhi => hm x fun y hy hcov => ?_
  obtain ⟨hylo, hyhi⟩ : y.addr ≤ x ∧ x < K.stop y := hcov
  have hc' : K.stop c = c.addr + K.len + c.size := rfl
  rcases hapart c hc y hy with hle | hle
  · omega
  · omega

variable (K)

/-- The two lists cover the same bytes, the second each byte once if the first does. -/
structure Recut (xs ys : List Block) : Prop where
  apart : ∀ zs, K.seg.Apart (xs ++ zs) → K.seg.Apart (ys ++ zs)
  holds : ∀ p, K.seg.Holds ys p () ↔ K.seg.Holds xs p ()
  total : K.total ys = K.total xs

variable {K}

lemma Recut.apart_self (h : K.Recut xs ys) (hx : K.seg.Apart xs) : K.seg.Apart ys := by
  have := h.apart [] (by rwa [append_nil])
  rwa [append_nil] at this

lemma Recut.refl (xs : List Block) : K.Recut xs xs := ⟨fun _ h => h, fun _ => Iff.rfl, rfl⟩

lemma Recut.trans {zs : List Block} (h : K.Recut xs ys) (h' : K.Recut ys zs) : K.Recut xs zs :=
  ⟨fun ws hw => h'.apart ws (h.apart ws hw), fun p => (h'.holds p).trans (h.holds p),
    h'.total.trans h.total⟩

lemma holds_append (p : Nat) :
    K.seg.Holds (xs ++ ys) p () ↔ K.seg.Holds xs p () ∨ K.seg.Holds ys p () := by
  simp only [SegKind.Holds, mem_append, or_and_right, exists_or]

/-- Recutting in the middle of a list. -/
lemma Recut.around (h : K.Recut xs ys) (l r : List Block) :
    K.Recut (l ++ (xs ++ r)) (l ++ (ys ++ r)) := by
  have hfront : ∀ ws zs : List Block, (l ++ (ws ++ r) ++ zs).Perm (ws ++ (l ++ r ++ zs)) := by
    grind
  refine ⟨fun zs hz => ?_, fun p => ?_, ?_⟩
  · exact (h.apart _ (hz.perm K.seg (hfront xs zs))).perm K.seg (hfront ys zs).symm
  · simp only [holds_append, h.holds p]
  · simp only [total_append, h.total]

/-- Flags do not matter. -/
lemma recut_flag (b : Block) (f : Bool) : K.Recut [b] [{ b with free := f }] := by
  refine ⟨fun zs hz => ?_, fun p => ?_, rfl⟩
  · exact pairwise_cons.mpr (pairwise_cons.mp hz)
  constructor
  · rintro ⟨c, hc, hcov⟩
    obtain rfl := mem_singleton.mp hc
    exact ⟨b, mem_singleton_self b, hcov⟩
  · rintro ⟨c, hc, hcov⟩
    obtain rfl := mem_singleton.mp hc
    exact ⟨_, mem_singleton_self _, hcov⟩

/-- One block cut in two. -/
lemma recut_split (f g : Bool) (hn : n + K.len ≤ b.size) :
    K.Recut [b] [⟨b.addr, n, f⟩, ⟨b.addr + K.len + n, b.size - n - K.len, g⟩] := by
  have hw : K.seg.Weld ⟨b.addr, n, f⟩ ⟨b.addr + K.len + n, b.size - n - K.len, g⟩ b := by
    refine ⟨rfl, rfl, ?_, ?_, ?_, fun _ _ => rfl, fun _ _ => rfl⟩
    · show b.addr + K.len + b.size = b.addr + K.len + n + K.len + (b.size - n - K.len)
      omega
    · show b.addr ≤ b.addr + K.len + n
      omega
    · show b.addr + K.len + n ≤ b.addr + K.len + n + K.len + (b.size - n - K.len)
      omega
  refine ⟨fun zs hz => hw.apart K.seg hz, fun p => hw.holds K.seg [] p (), ?_⟩
  simp only [total_cons, total_nil]
  omega

/-- Two adjacent blocks joined. -/
lemma recut_join (f : Bool) (hadj : K.stop a = b.addr) :
    K.Recut [a, b] [⟨a.addr, a.size + (K.len + b.size), f⟩] := by
  have hstop : a.addr + K.len + a.size = b.addr := hadj
  refine ⟨fun zs hz => ?_, fun p => ?_, ?_⟩
  · obtain ⟨ha, hrest⟩ := pairwise_cons.mp hz
    obtain ⟨hb, hzs⟩ := pairwise_cons.mp hrest
    refine pairwise_cons.mpr ⟨fun z hz => ?_, hzs⟩
    have haz : a.addr + K.len + a.size ≤ z.addr ∨ K.stop z ≤ a.addr := ha z (mem_cons_of_mem b hz)
    have hbz : b.addr + K.len + b.size ≤ z.addr ∨ K.stop z ≤ b.addr := hb z hz
    have hzpos : z.addr < K.stop z := by
      have := K.len_pos
      show z.addr < z.addr + K.len + z.size
      omega
    show a.addr + K.len + (a.size + (K.len + b.size)) ≤ z.addr ∨ K.stop z ≤ a.addr
    omega
  · have hw : K.seg.Weld a b ⟨a.addr, a.size + (K.len + b.size), f⟩ := by
      refine ⟨rfl, hadj, ?_, ?_, ?_, fun _ _ => rfl, fun _ _ => rfl⟩
      · show a.addr + K.len + (a.size + (K.len + b.size)) = b.addr + K.len + b.size
        omega
      · show a.addr ≤ a.addr + K.len + a.size
        omega
      · show b.addr ≤ b.addr + K.len + b.size
        omega
    exact (hw.holds K.seg [] p ()).symm
  · simp only [total_cons, total_nil]
    omega

/-! ## Tilings -/

variable (K)

/-- The blocks lie one behind the other, from `p` to `q`. -/
def Tiled : Nat → List Block → Nat → Prop
  | p, [], q => p = q
  | p, b :: bs, q => p = b.addr ∧ Tiled (K.stop b) bs q

variable {K}

lemma tiled_append : K.Tiled p (xs ++ ys) q ↔ ∃ r, K.Tiled p xs r ∧ K.Tiled r ys q := by
  induction xs generalizing p with
  | nil =>
    constructor
    · intro h
      exact ⟨p, rfl, h⟩
    · rintro ⟨r, rfl, h⟩
      exact h
  | cons b xs ih =>
    constructor
    · rintro ⟨hp, hrest⟩
      obtain ⟨r, hxs, hys⟩ := ih.mp hrest
      exact ⟨r, ⟨hp, hxs⟩, hys⟩
    · rintro ⟨r, ⟨hp, hxs⟩, hys⟩
      exact ⟨hp, ih.mpr ⟨r, hxs, hys⟩⟩

section
variable (h : K.Tiled p bs q)
include h

/-- The length of a tiling. -/
lemma Tiled.total : q = p + K.total bs := by
  induction bs generalizing p with
  | nil => exact h.symm
  | cons b bs ih =>
    obtain ⟨rfl, hrest⟩ := h
    have hstop : K.stop b = b.addr + K.len + b.size := rfl
    rw [ih hrest, total_cons, hstop]
    omega

lemma Tiled.bounds (hb : b ∈ bs) : p ≤ b.addr ∧ K.stop b ≤ q := by
  obtain ⟨l, r, rfl⟩ := append_of_mem hb
  obtain ⟨a, hl, rfl, hr⟩ := tiled_append.mp h
  have hlo := hl.total
  have hhi := hr.total
  omega

/-- The blocks of a tiling are in address order, and apart. -/
lemma Tiled.sorted : bs.Pairwise fun a b => K.stop a ≤ b.addr := by
  induction bs generalizing p with
  | nil => exact .nil
  | cons b bs ih =>
    obtain ⟨-, hrest⟩ := h
    exact pairwise_cons.mpr ⟨fun c hc => (hrest.bounds hc).1, ih hrest⟩

lemma Tiled.apart : K.seg.Apart bs := h.sorted.imp .inl

end

/-! ## Blocks in use -/

/-- Different blocks have different addresses. -/
lemma addr_inj (hapart : K.seg.Apart bs) (hb : b ∈ bs) (hc : c ∈ bs) (h : b.addr = c.addr) : b = c := by
  have hlen := K.len_pos
  refine hapart.unique K.seg hb hc (p := b.addr) ?_ ?_
  · show b.addr ≤ b.addr ∧ b.addr < b.addr + K.len + b.size
    omega
  · show c.addr ≤ b.addr ∧ b.addr < c.addr + K.len + c.size
    omega

/-- A free block is the only one at its address. -/
lemma fresh_of_free (hapart : K.seg.Apart bs) (hb : b ∈ bs) (hfree : b.free = true) :
    ∀ c ∈ bs, c.free = false → c.addr ≠ b.addr :=
  fun _ hc hused haddr => Block.ne_of_free hused hfree (addr_inj hapart hc hb haddr)

/-- The other blocks of a list. -/
lemma mem_rest (hapart : K.seg.Apart (l ++ b :: r)) : c ∈ l ++ r ↔ c ≠ b ∧ c ∈ l ++ b :: r := by
  have hlen := K.len_pos
  have hstop : K.stop b = b.addr + K.len + b.size := rfl
  constructor
  · intro hc
    refine ⟨?_, ?_⟩
    · rintro rfl
      have := apart_middle hapart c hc
      omega
    · exact perm_middle.mem_iff.mpr (mem_cons_of_mem b hc)
  · rintro ⟨hne, hc⟩
    exact (mem_cons.mp (perm_middle.mem_iff.mp hc)).resolve_left hne

/-- Different blocks do not meet. -/
lemma stop_le_of_ne (hapart : K.seg.Apart bs) (hb : b ∈ bs) (hc : c ∈ bs) (hne : b ≠ c) :
    b.addr + K.len + b.size ≤ c.addr ∨ c.addr + K.len + c.size ≤ b.addr := by
  have hlen := K.len_pos
  by_contra hmeet
  refine hne (hapart.unique K.seg hb hc (p := max b.addr c.addr) ?_ ?_)
  · show b.addr ≤ max b.addr c.addr ∧ max b.addr c.addr < b.addr + K.len + b.size
    omega
  · show c.addr ≤ max b.addr c.addr ∧ max b.addr c.addr < c.addr + K.len + c.size
    omega

variable (K)

/-- The pointers in use, with the sizes that were asked for, are the payloads of the blocks in use. -/
structure Owns (bs : List Block) (live : List (Nat × Nat)) : Prop where
  block : ∀ e ∈ live, ∃ b ∈ bs, b.free = false ∧ e.1 = K.payload b ∧ e.2 ≤ b.size
  entry : ∀ b ∈ bs, b.free = false → K.payload b ∈ live.map Prod.fst
  nodup : (live.map Prod.fst).Nodup

variable {K} {live : List (Nat × Nat)} {bs' : List Block}

lemma Owns.nil : K.Owns [] [] :=
  ⟨forall_mem_nil _, forall_mem_nil _, nodup_nil⟩

/-- Only the blocks in use matter. -/
lemma Owns.congr (h : K.Owns bs live) (hs : ∀ c : Block, c.free = false → (c ∈ bs' ↔ c ∈ bs)) :
    K.Owns bs' live := by
  refine ⟨fun e he => ?_, fun b hb hf => h.entry b ((hs b hf).mp hb) hf, h.nodup⟩
  obtain ⟨b, hb, hf, hrest⟩ := h.block e he
  exact ⟨b, (hs b hf).mpr hb, hf, hrest⟩

/-- One more block is in use. -/
lemma Owns.alloc (h : K.Owns bs live) (hc : c.free = false)
    (hnew : ∀ b ∈ bs, b.free = false → b.addr ≠ c.addr)
    (hs : ∀ d : Block, d.free = false → (d ∈ bs' ↔ d = c ∨ d ∈ bs)) (hk : k ≤ c.size) :
    K.Owns bs' ((K.payload c, k) :: live) := by
  refine ⟨?_, ?_, ?_⟩
  · intro e he
    rcases mem_cons.mp he with rfl | he
    · exact ⟨c, (hs c hc).mpr (.inl rfl), hc, rfl, hk⟩
    · obtain ⟨d, hd, hf, hrest⟩ := h.block e he
      exact ⟨d, (hs d hf).mpr (.inr hd), hf, hrest⟩
  · intro d hd hf
    rcases (hs d hf).mp hd with rfl | hd
    · exact mem_cons_self
    · exact mem_cons_of_mem _ (h.entry d hd hf)
  refine nodup_cons.mpr ⟨fun hin => ?_, h.nodup⟩
  obtain ⟨e, he, heq⟩ := mem_map.mp hin
  obtain ⟨d, hd, hf, hptr, -⟩ := h.block e he
  have hsame : d.addr + K.len = c.addr + K.len := hptr.symm.trans heq
  exact hnew d hd hf (Nat.add_right_cancel hsame)

/-- One block is no longer in use. -/
lemma Owns.release (h : K.Owns bs live) (hapart : K.seg.Apart bs) (hb : b ∈ bs)
    (hs : ∀ d : Block, d.free = false → (d ∈ bs' ↔ d ≠ b ∧ d ∈ bs)) :
    K.Owns bs' (live.filter fun e => e.1 ≠ K.payload b) := by
  refine ⟨?_, ?_, ?_⟩
  · intro e he
    obtain ⟨he, hne⟩ := mem_filter.mp he
    obtain ⟨c, hc, hf, hptr, hsize⟩ := h.block e he
    have hcb : c ≠ b := by
      rintro rfl
      exact of_decide_eq_true hne hptr
    exact ⟨c, (hs c hf).mpr ⟨hcb, hc⟩, hf, hptr, hsize⟩
  · intro c hc hf
    obtain ⟨hcb, hc⟩ := (hs c hf).mp hc
    obtain ⟨e, he, heq⟩ := mem_map.mp (h.entry c hc hf)
    refine mem_map.mpr ⟨e, mem_filter.mpr ⟨he, decide_eq_true fun hptr => ?_⟩, heq⟩
    have hsame : c.addr + K.len = b.addr + K.len := heq.symm.trans hptr
    exact hcb (addr_inj hapart hc hb (Nat.add_right_cancel hsame))
  · exact h.nodup.sublist (filter_sublist.map Prod.fst)

/-- A pointer that is not in use. -/
lemma filter_absent {ptr : Nat} (h : ptr ∉ live.map Prod.fst) :
    (live.filter fun e => e.1 ≠ ptr) = live := by
  refine filter_eq_self.mpr fun e he => decide_eq_true fun heq => h ?_
  exact mem_map.mpr ⟨e, he, heq⟩

variable (h : K.Owns bs live) (hapart : K.seg.Apart bs)
include h hapart

/-- No payload in use meets a header. -/
lemma Owns.headers (he : e ∈ live) (hc : c ∈ bs) : e.1 + e.2 ≤ c.addr ∨ c.addr + K.len ≤ e.1 := by
  obtain ⟨b, hb, -, hptr, hsize⟩ := h.block e he
  have hpay : e.1 = b.addr + K.len := hptr
  by_cases hbc : b = c
  · subst hbc
    omega
  · have := stop_le_of_ne hapart hb hc hbc
    omega

/-- The payloads in use do not meet. -/
lemma Owns.apart : live.Pairwise fun e f => e.1 + e.2 ≤ f.1 ∨ f.1 + f.2 ≤ e.1 := by
  refine List.Pairwise.imp_of_mem ?_ (pairwise_map.mp h.nodup)
  intro e f he hf hne
  obtain ⟨b, hb, -, hptr, hsize⟩ := h.block e he
  obtain ⟨c, hc, -, hptr', hsize'⟩ := h.block f hf
  have hbc : b ≠ c := by
    rintro rfl
    exact hne (hptr.trans hptr'.symm)
  have hpay : e.1 = b.addr + K.len := hptr
  have hpay' : f.1 = c.addr + K.len := hptr'
  have := stop_le_of_ne hapart hb hc hbc
  omega

/-- A store into a payload in use keeps the chain. -/
lemma Owns.chain_write (hc : K.Chain m before p bs q last) (he : e ∈ live) {a : Nat}
    (hlo : e.1 ≤ a) (hhi : a < e.1 + e.2) (v : UInt8) :
    K.Chain (update m a v) before p bs q last := by
  refine hc.congr fun c hcm x hxlo hxhi => ?_
  have hne : x ≠ a := by
    have := h.headers hapart he hcm
    omega
  exact update_of_ne hne _ _

end HeaderKind
end FermiOs.Library
