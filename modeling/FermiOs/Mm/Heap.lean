import FermiOs.Library.Blocks

/-!
# The kernel heap

`kmalloc` and `kfree` of `mm/heap/heap.c` on byte memory. A block has a header of 32 bytes with its
size, a magic number, a flag and the link to the next block. `kmalloc` takes the first block that is
large enough, split if enough is left, and asks the page allocator for another region when there is
none. `kfree` marks the block and walks the list, merging neighbours that are adjacent in memory.

The list of blocks is abstract; `Linked` says that it is in memory. Each loop of the code is followed
on that list: the search finds the first fitting block, and the two nested loops of `kfree` compute
`coalesceFrom`.
-/

namespace FermiOs
open Library List

namespace Heap

/-! ## Headers -/

/-- `BLOCK_MAGIC_ALLOC`. -/
def blockMagicAlloc : Nat := 0xA110CED

/-- `BLOCK_MAGIC_FREE`. -/
def blockMagicFree : Nat := 0xFEEDF1EE

section
variable (m : Bytes) (b : Nat)

/-- The fields of `block_header_t`. -/
def size : Nat := m.load b 8

@[inherit_doc size]
def magic : Nat := m.load (b + 8) 4

@[inherit_doc size]
def isFree : Nat := m.load (b + 12) 4

@[inherit_doc size]
def next : Nat := m.load (b + 16) 8

/-- Stores to the fields. -/
def setSize (v : Nat) : Bytes := m.store b 8 v

@[inherit_doc setSize]
def setMagic (v : Nat) : Bytes := m.store (b + 8) 4 v

@[inherit_doc setSize]
def setIsFree (v : Nat) : Bytes := m.store (b + 12) 4 v

@[inherit_doc setSize]
def setNext (v : Nat) : Bytes := m.store (b + 16) 8 v

end

/-- The header of a block that links to `n`. Magic and flag agree. -/
structure Header (m : Bytes) (b : Block) (n : Nat) : Prop where
  size : size m b.addr = b.size
  magic : magic m b.addr = if b.free then blockMagicFree else blockMagicAlloc
  isFree : isFree m b.addr = if b.free then 1 else 0
  next : next m b.addr = n

lemma Header.keep {m m' : Bytes} {b : Block} {n : Nat} (h : Header m b n)
    (hm : ∀ x, b.addr ≤ x → x < b.addr + 32 → m' x = m x) : Header m' b n := by
  have hload : ∀ o k, o + k ≤ 32 → m'.load (b.addr + o) k = m.load (b.addr + o) k := fun o k hk =>
    Bytes.load_congr fun x hlo hhi => hm x (by omega) (by omega)
  exact ⟨(hload 0 8 (by decide)).trans h.size, (hload 8 4 (by decide)).trans h.magic,
    (hload 12 4 (by decide)).trans h.isFree, (hload 16 8 (by decide)).trans h.next⟩

/-- `BLOCK_HEADER_SIZE` is 32; there are no links back. -/
def header : HeaderKind where
  len := 32
  len_pos := HeaderKind.pos_of_32
  Shows m b _ n := Header m b n
  frame := fun hm h => h.keep hm

/-- The end of a block, as a literal. -/
lemma stop_eq (b : Block) : header.stop b = b.addr + 32 + b.size := rfl

end Heap

/-- The state of the heap: memory, `heap_head`, and the registered regions with their lengths. -/
structure Heap where
  mem : Bytes
  head : Nat
  regions : List (Nat × Nat)

namespace Heap

/-! ## The code -/

/-- `PHYS_TO_VIRT`. -/
def physToVirt (pa : Nat) : Nat := 0xFFFF000000000000 + pa

/-- A bound on the number of blocks, for the loops over the list. -/
def bound (h : Heap) : Nat := (h.regions.map Prod.snd).sum

/-- `HEAP_ALIGN_UP`. -/
def alignUp (n : Nat) : Nat := (n + 15) / 16 * 16

/-- A free block of the given size at the end of the list. -/
def writeFree (m : Bytes) (b size next : Nat) : Bytes :=
  setNext (setMagic (setIsFree (setSize m b size) b 1) b blockMagicFree) b next

/-- `heap_init`, with the region the page allocator hands out. -/
def heapInit (m : Bytes) (phys : Nat) : Heap :=
  let va := physToVirt phys
  let bytes := 256 * 4096
  ⟨writeFree (m.fill va bytes 0) va (bytes - 32) 0, va, [(va, bytes)]⟩

/-- The length of the region `heap_expand` asks for, in 64-bit arithmetic. -/
def expandBytes (need : Nat) : Nat :=
  let pages := ((need + 32) % 2 ^ 64 + 4095) % 2 ^ 64 / 4096
  (if pages < 64 then 64 else pages) * 4096

/-- The tail of the list. -/
def tail (h : Heap) (m : Bytes) : Nat := walk (next m) (fun p => next m p == 0) h.bound h.head

/-- `heap_expand`, with the answer of the page allocator. A full region table undoes the link. -/
def heapExpand (h : Heap) (need : Nat) : Option Nat → Bool × Heap
  | none => (false, h)
  | some phys =>
    let va := physToVirt phys
    let bytes := expandBytes need
    let m := writeFree (h.mem.fill va bytes 0) va (bytes - 32) 0
    let t := h.tail m
    let m := setNext m t va
    if 16 ≤ h.regions.length then (false, { h with mem := setNext m t 0 })
    else (true, { h with mem := m, regions := h.regions ++ [(va, bytes)] })

/-- The search: the first block that is free and large enough, or null. -/
def firstFit (h : Heap) (n : Nat) : Nat :=
  walk (next h.mem) (fun p => p == 0 || (isFree h.mem p != 0 && n ≤ size h.mem p)) h.bound h.head

/-- A block is handed out, split if enough remains. -/
def takeBlock (m : Bytes) (cur n : Nat) : Bytes :=
  let remaining := size m cur - n
  let m :=
    if 32 + 32 < remaining then
      let nb := cur + 32 + n
      let m := setMagic (setIsFree (setSize m nb (remaining - 32)) nb 1) nb blockMagicFree
      let m := setNext m nb (next m cur)
      setNext (setSize m cur n) cur nb
    else m
  setMagic (setIsFree m cur 0) cur blockMagicAlloc

/-- The attempts of `kmalloc`, one for each answer of the page allocator. -/
def attempts (n : Nat) : List (Option Nat) → Heap → Nat × Heap
  | [], h => (0, h)
  | a :: as, h =>
    let cur := h.firstFit n
    if cur ≠ 0 then (cur + 32, { h with mem := takeBlock h.mem cur n })
    else
      match h.heapExpand n a with
      | (false, h) => (0, h)
      | (true, h) => attempts n as h

/-- `kmalloc`: two attempts. -/
def kmalloc (h : Heap) (n : Nat) (first second : Option Nat) : Nat × Heap :=
  if n = 0 then (0, h)
  else if 2 ^ 64 - 1 - 15 < n then (0, h)
  else attempts (alignUp n) [first, second] h

/-- `addr_in_any_region`. -/
def addrInAnyRegion (h : Heap) (a : Nat) : Bool :=
  h.regions.any fun r => decide (r.1 ≤ a ∧ a < r.1 + r.2)

/-- The inner loop of `kfree`: the block takes in its successors while both are free and adjacent. -/
def mergeNext : Nat → Bytes → Nat → Bytes
  | 0, m, _ => m
  | n + 1, m, cur =>
    if isFree m cur ≠ 0 ∧ next m cur ≠ 0 ∧ isFree m (next m cur) ≠ 0 then
      if (cur + 32 + size m cur) % 2 ^ 64 ≠ next m cur then m
      else
        let m := setSize m cur (size m cur + (32 + size m (next m cur)))
        mergeNext n (setNext m cur (next m (next m cur))) cur
    else m

/-- The outer loop of `kfree`. -/
def coalesce (bound : Nat) : Nat → Bytes → Nat → Bytes
  | 0, m, _ => m
  | n + 1, m, cur =>
    if cur = 0 then m
    else
      let m := mergeNext bound m cur
      coalesce bound n m (next m cur)

/-- A block is marked free. -/
def markFree (m : Bytes) (b : Nat) : Bytes := setMagic (setIsFree m b 1) b blockMagicFree

/-- The header in front of a pointer. -/
def blockOf (ptr : Nat) : Nat := (ptr + (2 ^ 64 - 32)) % 2 ^ 64

/-- `kfree`. -/
def kfree (h : Heap) (ptr : Nat) : Heap :=
  if ptr = 0 then h
  else
    let b := blockOf ptr
    if h.addrInAnyRegion b = false then h
    else if magic h.mem b ≠ blockMagicAlloc then h
    else if isFree h.mem b ≠ 0 then h
    else { h with mem := coalesce h.bound (h.bound + 1) (markFree h.mem b) h.head }

/-! ## Headers in memory -/

/-- Blocks a header can describe: nonzero aligned address and size, below the end of the address
space. -/
structure Fits (b : Block) : Prop where
  ne_zero : b.addr ≠ 0
  aligned : b.addr % 16 = 0
  size_aligned : b.size % 16 = 0
  below : b.addr + 32 + b.size < 2 ^ 64

/-- The list of blocks is in memory, from `p` on. -/
def Linked (m : Bytes) (p : Nat) (bs : List Block) (q : Nat) : Prop :=
  ∃ before last, header.Chain m before p bs q last

variable {a b : Block} {bs xs ys : List Block} {m m' : Bytes} {n p q x : Nat}

/-- There are no links back to compare. -/
lemma chain_before {before last : Nat} (h : header.Chain m before p bs q last) (before' : Nat) :
    ∃ last', header.Chain m before' p bs q last' := by
  cases bs with
  | nil => exact ⟨before', h.1, rfl⟩
  | cons b bs => exact ⟨last, h⟩

lemma linked_nil : Linked m p [] q ↔ p = q := by
  constructor
  · rintro ⟨before, last, h, -⟩
    exact h
  · rintro rfl
    exact ⟨0, 0, rfl, rfl⟩

lemma linked_cons : Linked m p (b :: bs) q ↔ p = b.addr ∧ ∃ n, Header m b n ∧ Linked m n bs q := by
  constructor
  · rintro ⟨before, last, hp, n, hb, hrest⟩
    exact ⟨hp, n, hb, b.addr, last, hrest⟩
  · rintro ⟨hp, n, hb, before, last, hrest⟩
    obtain ⟨last', hrest'⟩ := chain_before hrest b.addr
    exact ⟨0, last', hp, n, hb, hrest'⟩

lemma linked_append : Linked m p (xs ++ ys) q ↔ ∃ r, Linked m p xs r ∧ Linked m r ys q := by
  constructor
  · rintro ⟨before, last, h⟩
    obtain ⟨r, mid, hxs, hys⟩ := HeaderKind.chain_append.mp h
    exact ⟨r, ⟨before, mid, hxs⟩, mid, last, hys⟩
  · rintro ⟨r, ⟨before, mid, hxs⟩, mid', last, hys⟩
    obtain ⟨last', hys'⟩ := chain_before hys mid
    exact ⟨before, last', HeaderKind.chain_append.mpr ⟨r, mid, hxs, hys'⟩⟩

/-- Stores inside other blocks do not matter. -/
lemma Linked.keep (h : Linked m p bs q) (ys : List Block)
    (hapart : ∀ c ∈ bs, ∀ y ∈ ys, header.stop c ≤ y.addr ∨ header.stop y ≤ c.addr)
    (hm : ∀ x, (∀ y ∈ ys, ¬ header.seg.Covers y x) → m' x = m x) : Linked m' p bs q := by
  obtain ⟨before, last, hc⟩ := h
  exact ⟨before, last, hc.keep ys hapart hm⟩

lemma Linked.path (h : Linked m p bs q) : Path (next m) p (bs.map Block.addr) q := by
  obtain ⟨before, last, hc⟩ := h
  exact hc.path fun b _ _ n hb => hb.next

lemma Linked.header_mem (h : Linked m p bs q) (hb : b ∈ bs) : ∃ n, Header m b n := by
  obtain ⟨l, r, rfl⟩ := append_of_mem hb
  obtain ⟨a, -, hr⟩ := linked_append.mp h
  obtain ⟨-, n, hn, -⟩ := linked_cons.mp hr
  exact ⟨n, hn⟩

/-! ## Single blocks -/

section
variable {b : Nat}

/-- A header that was just written. -/
lemma header_writeFree {b : Block} (hfree : b.free = true) (hsize : b.size < 2 ^ 64)
    (hn : n < 2 ^ 64) : Header (writeFree m b.addr b.size n) b n := by
  have hmagic : blockMagicFree < 256 ^ 4 := by decide
  constructor <;> simp only [size, magic, isFree, next, writeFree, setNext, setMagic, setIsFree,
    setSize, hfree, if_true] <;> simp (disch := omega) only [Bytes.load_store_of_apart, Bytes.load_store]

lemma writeFree_outside {s : Nat} (h : x < b ∨ b + 32 ≤ x) : writeFree m b s n x = m x := by
  simp only [writeFree, setNext, setMagic, setIsFree, setSize]
  simp (disch := omega) only [Bytes.store_outside]

end

lemma Header.next_lt (h : Header m b n) : n < 2 ^ 64 := by
  rw [← h.next]
  exact Bytes.load_lt m (b.addr + 16) 8

/-- What becomes of a block that is handed out. -/
def taken (b : Block) (n : Nat) : List Block :=
  if 32 + 32 < b.size - n then
    [⟨b.addr, n, false⟩, ⟨b.addr + 32 + n, b.size - n - 32, true⟩]
  else [{ b with free := false }]

lemma takeBlock_outside (hsize : size m b.addr = b.size)
    (hx : ¬ header.seg.Covers b x) : takeBlock m b.addr n x = m x := by
  have hx : ¬ (b.addr ≤ x ∧ x < b.addr + 32 + b.size) := hx
  simp only [takeBlock, hsize, setNext, setMagic, setIsFree, setSize]
  split <;> simp (disch := omega) only [Bytes.store_outside]

variable {P : List Block → Prop} {nx : Nat}

/-- **Handing out** a block. -/
lemma takeBlock_linked (hb : Header m b nx) (hfit : Fits b)
    (hn : n ≤ b.size) : Linked (takeBlock m b.addr n) b.addr (taken b n) nx := by
  have hnx := hb.next_lt
  have hbelow := hfit.below
  have halloc : blockMagicAlloc < 256 ^ 4 := by decide
  have hfree : blockMagicFree < 256 ^ 4 := by decide
  have hbnext : m.load (b.addr + 16) 8 = nx := hb.next
  have hbsize : m.load b.addr 8 = b.size := hb.size
  simp only [takeBlock, taken, hb.size, setNext, setMagic, setIsFree, setSize, next]
  split
  · refine linked_cons.mpr ⟨rfl, b.addr + 32 + n, ⟨?_, ?_, ?_, ?_⟩, linked_cons.mpr ⟨rfl, nx,
      ⟨?_, ?_, ?_, ?_⟩, linked_nil.mpr rfl⟩⟩
    all_goals
      simp only [size, magic, isFree, next]
      simp (disch := omega) only [Bytes.load_store_of_apart, Bytes.load_store, hbnext, if_true,
        Bool.false_eq_true, if_false]
  refine linked_cons.mpr ⟨rfl, nx, ⟨?_, ?_, ?_, ?_⟩, linked_nil.mpr rfl⟩
  all_goals
    simp only [size, magic, isFree, next]
    simp (disch := omega) only [Bytes.load_store_of_apart, Bytes.load_store, hbsize, hbnext,
      Bool.false_eq_true, if_false]

lemma taken_fits (hfit : Fits b) (hn : n % 16 = 0) : ∀ c ∈ taken b n, Fits c := by
  obtain ⟨h0, ha, hs, hlt⟩ := hfit
  intro c hc
  unfold taken at hc
  split at hc
  · rcases mem_cons.mp hc with rfl | hc
    · exact ⟨h0, ha, hn, by dsimp only; omega⟩
    · obtain rfl := mem_singleton.mp hc
      exact ⟨by dsimp only; omega, by dsimp only; omega, by dsimp only; omega, by dsimp only; omega⟩
  · obtain rfl := mem_singleton.mp hc
    exact ⟨h0, ha, hs, hlt⟩

lemma taken_recut (b : Block) (n : Nat) : header.Recut [b] (taken b n) := by
  unfold taken
  split
  · exact HeaderKind.recut_split false true (by show n + 32 ≤ b.size; omega)
  · exact HeaderKind.recut_flag b false

/-! ## Merging -/

/-- Two free neighbours that touch. -/
def Mergeable (a b : Block) : Prop := a.free = true ∧ b.free = true ∧ header.stop a = b.addr
deriving Decidable

/-- The two as one free block. -/
def join (a b : Block) : Block := ⟨a.addr, a.size + (32 + b.size), true⟩

/-- The pass over the list: a block that has just been looked at, and the blocks behind it. -/
def coalesceFrom (a : Block) : List Block → List Block
  | [] => [a]
  | b :: bs => if Mergeable a b then coalesceFrom (join a b) bs else a :: coalesceFrom b bs

/-- The pass over a whole list. -/
def coalesceList : List Block → List Block
  | [] => []
  | a :: bs => coalesceFrom a bs

/-- What the inner loop makes of a block and its successors. -/
def absorb (a : Block) : List Block → Block × List Block
  | [] => (a, [])
  | b :: bs => if Mergeable a b then absorb (join a b) bs else (a, b :: bs)

lemma coalesceFrom_eq (a : Block) (bs : List Block) :
    coalesceFrom a bs = (absorb a bs).1 :: coalesceList (absorb a bs).2 := by
  induction bs generalizing a with
  | nil => rfl
  | cons b bs ih =>
    rw [coalesceFrom, absorb]
    split
    · exact ih (join a b)
    · rfl

/-- The block that takes in others starts where it did, and is free only if it was. -/
lemma absorb_head (a : Block) (bs : List Block) :
    (absorb a bs).1.addr = a.addr ∧ (absorb a bs).1.free = a.free := by
  induction bs generalizing a with
  | nil => exact ⟨rfl, rfl⟩
  | cons b bs ih =>
    rw [absorb]
    split_ifs with hm
    · obtain ⟨haddr, hfree⟩ := ih (join a b)
      exact ⟨haddr, hfree.trans hm.1.symm⟩
    · exact ⟨rfl, rfl⟩

lemma absorb_length (a : Block) (bs : List Block) : (absorb a bs).2.length ≤ bs.length := by
  induction bs generalizing a with
  | nil => exact le_refl _
  | cons b bs ih =>
    rw [absorb]
    split
    · exact (ih (join a b)).trans (Nat.le_succ _)
    · exact le_refl _

/-- **After the pass** no two neighbours in the list could be merged. -/
lemma coalesceFrom_done (a : Block) (bs : List Block) :
    (coalesceFrom a bs).IsChain fun a b => ¬ Mergeable a b := by
  induction bs generalizing a with
  | nil => exact .singleton a
  | cons b bs ih =>
    rw [coalesceFrom]
    split_ifs with hm
    · exact ih (join a b)
    · have hrest := ih b
      rw [coalesceFrom_eq] at hrest ⊢
      refine .cons_cons ?_ hrest
      rw [Mergeable, (absorb_head b bs).1, (absorb_head b bs).2]
      exact hm

lemma coalesceList_done (bs : List Block) : (coalesceList bs).IsChain fun a b => ¬ Mergeable a b := by
  cases bs with
  | nil => exact .nil
  | cons a bs => exact coalesceFrom_done a bs

lemma Mergeable.recut {b : Block} (h : Mergeable a b) (bs : List Block) :
    header.Recut (a :: b :: bs) (join a b :: bs) :=
  (HeaderKind.recut_join true h.2.2).around [] bs

lemma Mergeable.fits {b : Block} (h : Mergeable a b) (ha : Fits a) (hb : Fits b) : Fits (join a b) := by
  have hadj : a.addr + 32 + a.size = b.addr := h.2.2
  have hlt := hb.below
  refine ⟨ha.ne_zero, ha.aligned, ?_, ?_⟩
  · have h1 := ha.size_aligned
    have h2 := hb.size_aligned
    show (a.size + (32 + b.size)) % 16 = 0
    omega
  · show a.addr + 32 + (a.size + (32 + b.size)) < 2 ^ 64
    omega

/-- What holds of a list still holds when two neighbours that touch become one block. -/
def Keeps (P : List Block → Prop) : Prop :=
  ∀ (l r : List Block) (a b : Block), Mergeable a b → P (l ++ a :: b :: r) → P (l ++ join a b :: r)

lemma absorb_keeps (hP : Keeps P) (h : P (a :: bs)) : P ((absorb a bs).1 :: (absorb a bs).2) := by
  induction bs generalizing a with
  | nil => exact h
  | cons b bs ih =>
    rw [absorb]
    split_ifs with hm
    · exact ih (hP [] bs a b hm h)
    · exact h

lemma coalesceFrom_keeps (hP : Keeps P) (l : List Block) (h : P (l ++ a :: bs)) :
    P (l ++ coalesceFrom a bs) := by
  induction bs generalizing a l with
  | nil => exact h
  | cons b bs ih =>
    rw [coalesceFrom]
    split_ifs with hm
    · exact ih l (hP l bs a b hm h)
    · have hrest := ih (a := b) (l ++ [a]) (by rwa [append_assoc])
      rwa [append_assoc] at hrest

lemma coalesceList_keeps (hP : Keeps P) (h : P bs) : P (coalesceList bs) := by
  cases bs with
  | nil => exact h
  | cons a bs => exact coalesceFrom_keeps hP [] h

lemma keeps_recut (bs : List Block) : Keeps (header.Recut bs) := fun l r _ _ hm h =>
  h.trans ((HeaderKind.recut_join true hm.2.2).around l r)

lemma keeps_fits : Keeps fun bs => ∀ c ∈ bs, Fits c := by
  intro l r a b hm h c hc
  simp only [mem_append, mem_cons] at hc h
  rcases hc with hc | rfl | hc
  · exact h c (.inl hc)
  · exact hm.fits (h a (.inr (.inl rfl))) (h b (.inr (.inr (.inl rfl))))
  · exact h c (.inr (.inr (.inr hc)))

/-- Blocks in use stay, and no others appear. -/
lemma keeps_live {c : Block} (hc : c.free = false) (P : Prop) : Keeps fun bs => c ∈ bs ↔ P := by
  intro l r a b hm h
  have hne : ∀ d : Block, d.free = true → c ≠ d := fun d => Block.ne_of_free hc
  rw [← h]
  simp only [mem_append, mem_cons, hne (join a b) rfl, hne a hm.1, hne b hm.2.1, false_or]

/-- One round of the inner loop. -/
lemma header_join (ha : Header m a b.addr) (hb : Header m b nx)
    (hm : Mergeable a b) (hfit : Fits (join a b)) :
    Header (setNext (setSize m a.addr (size m a.addr + (32 + size m b.addr))) a.addr
      (next (setSize m a.addr (size m a.addr + (32 + size m b.addr))) b.addr)) (join a b) nx := by
  have hadj : a.addr + 32 + a.size = b.addr := hm.2.2
  have hnx := hb.next_lt
  have hbelow : a.addr + 32 + (a.size + (32 + b.size)) < 2 ^ 64 := hfit.below
  have hbnext : m.load (b.addr + 16) 8 = nx := hb.next
  have hmagic : m.load (a.addr + 8) 4 = blockMagicFree := ha.magic.trans (if_pos hm.1)
  have hfree : m.load (a.addr + 12) 4 = 1 := ha.isFree.trans (if_pos hm.1)
  rw [ha.size, hb.size]
  constructor <;> simp only [size, magic, isFree, next, join, setNext, setSize] <;>
    simp (disch := omega) only [Bytes.load_store_of_apart, Bytes.load_store, hmagic, hfree, hbnext,
      if_true]

/-- The bytes where aligned headers have their magic numbers. -/
def MagicLane (x : Nat) : Prop := 8 ≤ x % 16 ∧ x % 16 < 12

/-- **The inner loop** computes `absorb`, and stores into the blocks it was given only, and not into
magic numbers. -/
lemma mergeNext_linked (h : Linked m a.addr (a :: bs) 0)
    (hapart : header.seg.Apart (a :: bs)) (hfit : ∀ c ∈ a :: bs, Fits c) (hn : bs.length ≤ n) :
    Linked (mergeNext n m a.addr) a.addr ((absorb a bs).1 :: (absorb a bs).2) 0 ∧
      ∀ x, (header.seg.Holds (a :: bs) x () → MagicLane x) → mergeNext n m a.addr x = m x := by
  induction bs generalizing m a n with
  | nil =>
    obtain ⟨-, nx, ha, hnil⟩ := linked_cons.mp h
    have hnx : next m a.addr = 0 := ha.next.trans (linked_nil.mp hnil)
    have hstay : mergeNext n m a.addr = m := by
      cases n with
      | zero => rfl
      | succ n => rw [mergeNext, if_neg fun hc => hc.2.1 hnx]
    rw [hstay]
    exact ⟨h, fun x _ => rfl⟩
  | cons b bs ih =>
    obtain ⟨-, nx, ha, hrest⟩ := linked_cons.mp h
    obtain ⟨rfl, nx', hb, hbs⟩ := linked_cons.mp hrest
    have hfa := hfit a mem_cons_self
    have hfb := hfit b (mem_cons_of_mem a mem_cons_self)
    cases n with
    | zero => exact absurd hn (Nat.not_succ_le_zero _)
    | succ n =>
      rw [absorb]
      by_cases hm : Mergeable a b
      · have hadj : a.addr + 32 + a.size = b.addr := hm.2.2
        have hlt := hfa.below
        rw [mergeNext, ha.next, ha.isFree, hb.isFree, ha.size, if_pos hm, if_pos hm.1,
          if_pos hm.2.1, if_pos ⟨by decide, hfb.ne_zero, by decide⟩,
          if_neg (not_not.mpr (by rw [Nat.mod_eq_of_lt hlt, hadj]))]
        have hfj := hm.fits hfa hfb
        have hjoin := header_join ha hb hm hfj
        dsimp only
        rw [← ha.size]
        -- the link is read after the size was stored, which does not touch it
        have hlink : next (setSize m a.addr (size m a.addr + (32 + size m b.addr))) a.addr =
            b.addr := by
          rw [next, setSize, Bytes.load_store_of_apart (by omega)]
          exact ha.next
        rw [hlink]
        revert hjoin
        generalize hm' : setNext (setSize m a.addr (size m a.addr + (32 + size m b.addr))) a.addr
          (next (setSize m a.addr (size m a.addr + (32 + size m b.addr))) b.addr) = m'
        intro hjoin
        have hout : ∀ x, (a.addr ≤ x → x < a.addr + 32 → MagicLane x) → m' x = m x := by
          intro x hx
          have hal := hfa.aligned
          unfold MagicLane at hx
          rw [← hm', setNext, setSize, Bytes.store_outside (by omega), Bytes.store_outside (by omega)]
        have hlinked : Linked m' (join a b).addr (join a b :: bs) 0 := by
          refine linked_cons.mpr ⟨rfl, nx', hjoin, hbs.keep [a] ?_ ?_⟩
          · intro c hc y hy
            obtain rfl := mem_singleton.mp hy
            exact ((pairwise_cons.mp hapart).1 c (mem_cons_of_mem b hc)).symm
          · intro x hx
            refine hout x fun hlo hhi => absurd ?_ (hx a (mem_singleton_self a))
            show a.addr ≤ x ∧ x < a.addr + 32 + a.size
            omega
        have hrecut := hm.recut bs
        have hfit' : ∀ c ∈ join a b :: bs, Fits c := by
          intro c hc
          rcases mem_cons.mp hc with rfl | hc
          · exact hfj
          · exact hfit c (mem_cons_of_mem a (mem_cons_of_mem b hc))
        obtain ⟨h1, h2⟩ := ih hlinked (hrecut.apart_self hapart) hfit' (Nat.le_of_succ_le_succ hn)
        refine ⟨h1, fun x hx => ?_⟩
        refine (h2 x fun hh => hx ((hrecut.holds x).mp hh)).trans
          (hout x fun hlo hhi => hx ⟨a, mem_cons_self, ?_, rfl⟩)
        show a.addr ≤ x ∧ x < a.addr + 32 + a.size
        omega
      -- one of the flags is clear, or there is a gap
      have hstay : mergeNext (n + 1) m a.addr = m := by
        rw [mergeNext]
        by_cases hc : isFree m a.addr ≠ 0 ∧ next m a.addr ≠ 0 ∧ isFree m (next m a.addr) ≠ 0
        · rw [if_pos hc, if_pos]
          intro hadj
          rw [ha.size, ha.next, Nat.mod_eq_of_lt hfa.below] at hadj
          refine hm ⟨?_, ?_, hadj⟩
          · by_contra hf
            exact hc.1 (ha.isFree.trans (if_neg hf))
          · by_contra hf
            have hclear := hc.2.2
            rw [ha.next] at hclear
            exact hclear (hb.isFree.trans (if_neg hf))
        · rw [if_neg hc]
      rw [hstay, if_neg hm]
      exact ⟨h, fun x _ => rfl⟩

/-- **The outer loop** computes `coalesceList`. -/
lemma coalesce_linked {bound : Nat} (h : Linked m p bs 0)
    (hapart : header.seg.Apart bs) (hfit : ∀ c ∈ bs, Fits c) (hbound : bs.length ≤ bound)
    (hn : bs.length < n) :
    Linked (coalesce bound n m p) p (coalesceList bs) 0 ∧
      ∀ x, (header.seg.Holds bs x () → MagicLane x) → coalesce bound n m p x = m x := by
  induction n generalizing m p bs with
  | zero => omega
  | succ n ih =>
    cases bs with
    | nil =>
      have hp := linked_nil.mp h
      rw [coalesce, if_pos hp]
      exact ⟨h, fun x _ => rfl⟩
    | cons a bs =>
      obtain ⟨rfl, nx, ha, hrest⟩ := linked_cons.mp h
      have hlen : bs.length < bound := hbound
      obtain ⟨h1, h2⟩ := mergeNext_linked h hapart hfit hlen.le
      rw [coalesce, if_neg (hfit a mem_cons_self).ne_zero]
      dsimp only
      have hrecut := absorb_keeps (keeps_recut (a :: bs)) (.refl _)
      have hfit' := absorb_keeps keeps_fits hfit
      have hapart' := hrecut.apart_self hapart
      have hshort := absorb_length a bs
      have haddr := (absorb_head a bs).1
      rw [show coalesceList (a :: bs) = coalesceFrom a bs from rfl, coalesceFrom_eq]
      revert h1 hrecut hfit' hapart' hshort haddr
      generalize mergeNext bound m a.addr = m1 at h2 ⊢
      generalize (absorb a bs).1 = a'
      generalize (absorb a bs).2 = bs'
      intro h1 hrecut hfit' hapart' hshort haddr
      obtain ⟨-, nx', ha', hbs'⟩ := linked_cons.mp h1
      have hnext : next m1 a.addr = nx' := by
        rw [← haddr]
        exact ha'.next
      rw [hnext]
      obtain ⟨hfar, hapart''⟩ := pairwise_cons.mp hapart'
      have hroom : bs'.length < n := by
        have hroom : bs.length + 1 < n + 1 := hn
        omega
      obtain ⟨h3, h4⟩ := ih hbs' hapart'' (fun c hc => hfit' c (mem_cons_of_mem a' hc))
        (hshort.trans hlen.le) hroom
      refine ⟨linked_cons.mpr ⟨haddr.symm, nx', ?_, h3⟩, fun x hx => ?_⟩
      · refine ha'.keep fun x hlo hhi => h4 x ?_
        rintro ⟨c, hc, ⟨hclo, hchi⟩, -⟩
        exfalso
        have hclo : c.addr ≤ x := hclo
        have hchi : x < c.addr + 32 + c.size := hchi
        have : a'.addr + 32 + a'.size ≤ c.addr ∨ c.addr + 32 + c.size ≤ a'.addr := hfar c hc
        omega
      have hx' : header.seg.Holds bs' x () → MagicLane x := by
        rintro ⟨c, hc, hcov⟩
        exact hx ((hrecut.holds x).mp ⟨c, mem_cons_of_mem a' hc, hcov⟩)
      rw [h4 x hx', h2 x hx]

end Heap
end FermiOs
