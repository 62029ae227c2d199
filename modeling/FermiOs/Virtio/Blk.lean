import FermiOs.Virtio.Queue

/-!
# Requests of the block driver

`blk_read` and `blk_write` of `pci/virtio/blk/blk.c` with the queue they use. A call puts a header, the
caller's buffer and a status byte on the queue, polls until the device's index moves or a spin limit is
reached, and decides by the status byte alone. The header and the status byte live on the stack of the
call. When the poll gives up, the device still owns the request: it may write the buffer and the status
byte after the call has returned, and a later call may take its completion for its own.

The device fetches a chain, writes its data and status, and publishes the completion, each at a time of
its choice. The lock of the driver lets one call in at a time.
-/

namespace FermiOs.Virtio
open Library List Function

/-- A chain the device has fetched: the number of the call that supplied it, its first descriptor, its
segments, and the status the device has written, if any. -/
structure Request where
  id : Nat
  head : Nat
  chain : List Desc
  status : Option UInt8

/-- A call that has not returned: its number and the address of its status byte. -/
structure Active where
  id : Nat
  status : Nat

/-- The driver and the device. `calls` and `fetched` count the calls begun and the chains the device
has fetched; `returned` lists the finished calls with whether they reported success, `completed` the
published requests with their status. -/
structure Blk where
  vq : Virtqueue
  mem : Nat → UInt8
  calls : Nat
  call : Option Active
  fetched : Nat
  inflight : List Request
  returned : List (Nat × Bool)
  completed : List (Nat × UInt8)

/-- `VIRTIO_BLK_S_OK`. -/
def blkOk : UInt8 := 0

/-- The three segments of a request: the device writes the buffer of a read, and the status. -/
def blkSegs (write : Bool) (hdr buf status : Nat) : List Seg :=
  [⟨hdr, 16, 0⟩, ⟨buf, 512, if write then 0 else descWrite⟩, ⟨status, 1, descWrite⟩]

/-- Device writes to memory: every segment marked for it but the last gets data, the last one the
status. -/
def dmaWrite (data : Nat → UInt8) (st : UInt8) : List Desc → (Nat → UInt8) → Nat → UInt8
  | [], mem => mem
  | [d], mem => update mem d.addr st
  | d :: d' :: ds, mem =>
    dmaWrite data st (d' :: ds) (if d.flags.testBit 1 then
      fun a => if d.addr ≤ a ∧ a < d.addr + d.len then data (a - d.addr) else mem a
    else mem)

namespace Blk

/-- The call returns what its status byte says. -/
def finish (s : Blk) (a : Active) : Blk :=
  { s with call := none, returned := (a.id, decide (s.mem a.status = blkOk)) :: s.returned }

/-- A step of the driver or of the device. -/
inductive Op
  /-- `blk_read` or `blk_write` up to the poll. -/
  | call (write : Bool) (hdr buf status : Nat)
  /-- The device reads the next chain it was offered. -/
  | fetch
  /-- The device writes the data and the status of a request. -/
  | dma (j : Nat) (data : Nat → UInt8) (st : UInt8)
  /-- The device puts the request on the used ring. -/
  | publish (j len : Nat)
  /-- `virtqueue_poll` sees the index move, and the call returns. -/
  | poll
  /-- `virtqueue_poll` reaches the spin limit, and the call returns. -/
  | giveUp

def step (s : Blk) : Op → Blk
  | .call write hdr buf status =>
    { s with
      vq := virtqueueSubmitChain s.vq (blkSegs write hdr buf status)
      mem := update s.mem status 0xFF
      calls := s.calls + 1
      call := some ⟨s.calls, status⟩ }
  | .fetch =>
    let head := s.vq.availRing (s.fetched % 2 ^ 16 % s.vq.size)
    { s with
      fetched := s.fetched + 1
      inflight := s.inflight ++ [⟨s.fetched, head, chainFrom s.vq.desc s.vq.size head, none⟩] }
  | .dma j data st =>
    match s.inflight[j]? with
    | none => s
    | some r =>
      { s with
        mem := dmaWrite data st r.chain s.mem
        inflight := s.inflight.set j { r with status := some st } }
  | .publish j len =>
    match s.inflight[j]? with
    | some ⟨id, head, _, some st⟩ =>
      { s with
        vq := s.vq.giveBack ⟨head, len⟩
        inflight := s.inflight.eraseIdx j
        completed := (id, st) :: s.completed }
    | _ => s
  | .poll =>
    match s.call with
    | none => s
    | some a =>
      finish { s with vq := { s.vq with lastUsed := (s.vq.lastUsed + 1) % 2 ^ 16 } } a
  | .giveUp =>
    match s.call with
    | none => s
    | some a => s.finish a

/-- When each step can be taken: the lock admits one call, and the poll ends one way or the other
according to the index. -/
def Allowed (s : Blk) : Op → Prop
  | .call _ _ _ _ => s.call.isNone = true
  | .fetch => s.fetched < s.calls
  | .dma j _ _ => j < s.inflight.length
  | .publish j _ => (s.inflight[j]?.bind Request.status).isSome = true
  | .poll => s.call.isSome = true ∧ s.vq.usedIdx ≠ s.vq.lastUsed
  | .giveUp => s.call.isSome = true ∧ s.vq.usedIdx = s.vq.lastUsed

/-- The device answers before the poll gives up. -/
def InTime (_ : Blk) : Op → Prop
  | .giveUp => False
  | _ => True

/-- After `pci_virtio_blk_init` with a queue of a size that meets the condition. -/
def Initial (Sizes : Nat → Prop) (s : Blk) : Prop :=
  ∃ maxSize vq mem, virtqueueSetup maxSize = some vq ∧ Sizes vq.size ∧
    s = ⟨vq, mem, 0, none, 0, [], [], []⟩

/-- A call that reported success was completed with status OK, and no request that the device still
has, fetched or not, belongs to a call that has returned. -/
def Safe (s : Blk) : Prop :=
  (∀ id, (id, true) ∈ s.returned → (id, blkOk) ∈ s.completed) ∧
    (∀ r ∈ s.inflight, ∀ ok, (r.id, ok) ∉ s.returned) ∧
    ∀ id, s.fetched ≤ id → ∀ ok, (id, ok) ∉ s.returned

/-! ## The chain of a request -/

/-- The last segment of the chain is at the address. -/
def EndsAt (chain : List Desc) (p : Nat) : Prop := ∃ d, chain.getLast? = some d ∧ d.addr = p

lemma dmaWrite_status (data : Nat → UInt8) (st : UInt8) {chain : List Desc} {p : Nat}
    (h : EndsAt chain p) (mem : Nat → UInt8) : dmaWrite data st chain mem p = st := by
  induction chain generalizing mem with
  | nil =>
    obtain ⟨d, hd, -⟩ := h
    cases hd
  | cons d chain ih =>
    cases chain with
    | nil =>
      obtain ⟨e, he, rfl⟩ := h
      have hed : d = e := Option.some.inj he
      rw [dmaWrite, hed, update_self]
    | cons d' ds =>
      obtain ⟨e, he, hp⟩ := h
      exact ih ⟨e, he, hp⟩ _

/-- On a queue with room for three descriptors the device finds the three segments in turn. -/
lemma chainFrom_blkSegs (desc : Nat → Desc) {size head : Nat} (hsize : 3 ≤ size) (hhead : head < size)
    (write : Bool) (hdr buf status : Nat) :
    EndsAt (chainFrom (writeChain size head 0 (blkSegs write hdr buf status) desc) size head) status := by
  have hsegs : blkSegs write hdr buf status =
      [⟨hdr, 16, false⟩, ⟨buf, 512, !write⟩, ⟨status, 1, true⟩].map Buffer.seg := by
    cases write <;> rfl
  have hread := chainFrom_writeChain size head
    [⟨hdr, 16, false⟩, ⟨buf, 512, !write⟩, ⟨status, 1, true⟩] 0 size desc (cons_ne_nil _ _) hsize hsize
  rw [add_zero, Nat.mod_eq_of_lt hhead, ← hsegs] at hread
  have hlast := congrArg getLast? hread
  rw [getLast?_map] at hlast
  obtain ⟨d, hd, hdb⟩ := Option.map_eq_some_iff.mp hlast
  exact ⟨d, hd, congrArg Buffer.pa hdb⟩

/-! ## Every run of a device that answers in time -/

/-- Where the request of the current call is. -/
inductive Phase (s : Blk) (a : Active) : Prop
  | offered (hfetched : s.fetched = a.id) (hin : s.inflight = [])
      (hused : s.vq.usedIdx = s.vq.lastUsed)
      (hchain : EndsAt (chainFrom s.vq.desc s.vq.size
        (s.vq.availRing (a.id % 2 ^ 16 % s.vq.size))) a.status)
  | taken (r : Request) (hfetched : s.fetched = a.id + 1) (hin : s.inflight = [r])
      (hid : r.id = a.id) (hchain : EndsAt r.chain a.status)
      (hused : s.vq.usedIdx = s.vq.lastUsed)
      (hstatus : ∀ st, r.status = some st → s.mem a.status = st)
  | published (hfetched : s.fetched = a.id + 1) (hin : s.inflight = [])
      (hused : s.vq.usedIdx = (s.vq.lastUsed + 1) % 2 ^ 16)
      (hdone : (a.id, s.mem a.status) ∈ s.completed)

/-- One request at a time: between calls the device has none, and during a call only the call's. -/
structure Inv (s : Blk) : Prop where
  size : 3 ≤ s.vq.size
  freeHead : s.vq.freeHead < s.vq.size
  availIdx : s.vq.availIdx = s.calls % 2 ^ 16
  lastUsed : s.vq.lastUsed < 2 ^ 16
  success : ∀ id, (id, true) ∈ s.returned → (id, blkOk) ∈ s.completed
  idle : s.call = none → s.inflight = [] ∧ s.fetched = s.calls ∧ s.vq.usedIdx = s.vq.lastUsed ∧
    ∀ id ok, (id, ok) ∈ s.returned → id < s.calls
  active : ∀ a, s.call = some a → s.calls = a.id + 1 ∧ s.Phase a ∧
    ∀ id ok, (id, ok) ∈ s.returned → id < a.id

section
variable {s : Blk} {a : Active} (h : s.Inv)
include h

lemma Inv.safe : s.Safe := by
  refine ⟨h.success, ?_, ?_⟩
  · intro r hr ok hmem
    cases hc : s.call with
    | none =>
      rw [(h.idle hc).1] at hr
      cases hr
    | some a =>
      obtain ⟨-, hphase, hret⟩ := h.active a hc
      cases hphase with
      | offered _ hin _ _ =>
        rw [hin] at hr
        cases hr
      | taken r' _ hin hid _ _ _ =>
        rw [hin, mem_singleton] at hr
        have := hret _ ok hmem
        rw [hr, hid] at this
        omega
      | published _ hin _ _ =>
        rw [hin] at hr
        cases hr
  intro id hid ok hmem
  cases hc : s.call with
  | none =>
    obtain ⟨-, hf, -, hret⟩ := h.idle hc
    have := hret id ok hmem
    omega
  | some a =>
    obtain ⟨-, hphase, hret⟩ := h.active a hc
    have := hret id ok hmem
    cases hphase with
    | offered hf _ _ _ => omega
    | taken _ hf _ _ _ _ _ => omega
    | published hf _ _ _ => omega

lemma Inv.callStep (hc : s.call.isNone = true) (write : Bool) (hdr buf status : Nat) :
    (s.step (.call write hdr buf status)).Inv := by
  obtain ⟨hin, hf, hused, hret⟩ := h.idle (Option.isNone_iff_eq_none.mp hc)
  have hpos : 0 < s.vq.size := lt_of_lt_of_le (by omega) h.size
  refine ⟨h.size, Nat.mod_lt _ hpos, ?_, h.lastUsed, h.success, fun hnone => (by cases hnone), ?_⟩
  · show (s.vq.availIdx + 1) % 2 ^ 16 = (s.calls + 1) % 2 ^ 16
    rw [h.availIdx, Nat.mod_add_mod]
  intro a ha
  cases ha
  refine ⟨rfl, .offered hf hin hused ?_, hret⟩
  have hring : update s.vq.availRing (s.vq.availIdx % s.vq.size) s.vq.freeHead
      (s.calls % 2 ^ 16 % s.vq.size) = s.vq.freeHead := by
    rw [h.availIdx, update_self]
  show EndsAt (chainFrom (writeChain s.vq.size s.vq.freeHead 0 _ s.vq.desc) s.vq.size
    (update s.vq.availRing (s.vq.availIdx % s.vq.size) s.vq.freeHead
      (s.calls % 2 ^ 16 % s.vq.size))) status
  rw [hring]
  exact chainFrom_blkSegs s.vq.desc h.size h.freeHead write hdr buf status

/-- While the device has something to do, a call is under way. -/
lemma Inv.call_of_inflight {r : Request} (hr : r ∈ s.inflight) :
    ∃ a, s.call = some a ∧ s.inflight = [r] ∧ s.calls = a.id + 1 ∧ s.fetched = a.id + 1 ∧
      r.id = a.id ∧ EndsAt r.chain a.status ∧ s.vq.usedIdx = s.vq.lastUsed ∧
      (∀ st, r.status = some st → s.mem a.status = st) ∧
      ∀ id ok, (id, ok) ∈ s.returned → id < a.id := by
  cases hc : s.call with
  | none =>
    rw [(h.idle hc).1] at hr
    cases hr
  | some a =>
    obtain ⟨hcalls, hphase, hret⟩ := h.active a hc
    cases hphase with
    | offered _ hin _ _ =>
      rw [hin] at hr
      cases hr
    | taken r' hf hin hid hchain hused hstatus =>
      have hrr : r = r' := by
        rw [hin] at hr
        exact mem_singleton.mp hr
      subst hrr
      exact ⟨a, rfl, hin, hcalls, hf, hid, hchain, hused, hstatus, hret⟩
    | published _ hin _ _ =>
      rw [hin] at hr
      cases hr

lemma Inv.fetchStep (hlt : s.fetched < s.calls) : (s.step .fetch).Inv := by
  cases hc : s.call with
  | none =>
    have := (h.idle hc).2.1
    omega
  | some a =>
    obtain ⟨hcalls, hphase, hret⟩ := h.active a hc
    refine ⟨h.size, h.freeHead, h.availIdx, h.lastUsed, h.success, fun hnone => ?_, fun a' ha' => ?_⟩
    · exact absurd (hc.symm.trans hnone) (Option.some_ne_none a)
    cases hc.symm.trans ha'
    cases hphase with
    | offered hf hin hused hchain =>
      let head := s.vq.availRing (s.fetched % 2 ^ 16 % s.vq.size)
      refine ⟨hcalls, .taken ⟨s.fetched, head, chainFrom s.vq.desc s.vq.size head, none⟩ ?_ ?_ hf
        ?_ hused ?_, hret⟩
      · show s.fetched + 1 = a.id + 1
        rw [hf]
      · show s.inflight ++ _ = _
        rw [hin]
        rfl
      · rw [← hf] at hchain
        exact hchain
      · intro st hst
        cases hst
    | taken _ hf _ _ _ _ _ => omega
    | published hf _ _ _ => omega

lemma Inv.dmaStep {j : Nat} (hj : j < s.inflight.length) (data : Nat → UInt8)
    (st : UInt8) : (s.step (.dma j data st)).Inv := by
  have hget : s.inflight[j]? = some s.inflight[j] := getElem?_eq_getElem hj
  obtain ⟨a, hc, hin, hcalls, hf, hid, hchain, hused, -, hret⟩ :=
    h.call_of_inflight (mem_of_getElem? hget)
  have hj0 : j = 0 := by
    rw [hin, length_singleton] at hj
    omega
  rw [step, hget]
  refine ⟨h.size, h.freeHead, h.availIdx, h.lastUsed, h.success, fun hnone => ?_, fun a' ha' => ?_⟩
  · exact absurd (hc.symm.trans hnone) (Option.some_ne_none a)
  cases hc.symm.trans ha'
  refine ⟨hcalls, .taken { s.inflight[j] with status := some st } hf ?_ hid hchain hused ?_, hret⟩
  · show s.inflight.set j _ = _
    generalize s.inflight[j] = r at hin ⊢
    rw [hin, hj0]
    rfl
  · intro st' hst'
    cases hst'
    exact dmaWrite_status data st hchain s.mem

lemma Inv.publishStep {j : Nat} (hj : (s.inflight[j]?.bind Request.status).isSome = true) (len : Nat) :
    (s.step (.publish j len)).Inv := by
  obtain ⟨st, hst⟩ := Option.isSome_iff_exists.mp hj
  obtain ⟨⟨id, head, chain, status⟩, hget, rfl⟩ := Option.bind_eq_some_iff.mp hst
  obtain ⟨a, hc, hin, hcalls, hf, hid, -, hused, hstatus, hret⟩ :=
    h.call_of_inflight (mem_of_getElem? hget)
  have hj0 : j = 0 := by
    have := (List.getElem?_eq_some_iff.mp hget).1
    rw [hin, length_singleton] at this
    omega
  rw [step, hget]
  refine ⟨h.size, h.freeHead, h.availIdx, h.lastUsed, fun id' hid' => ?_, fun hnone => ?_,
    fun a' ha' => ?_⟩
  · exact mem_cons_of_mem _ (h.success id' hid')
  · exact absurd (hc.symm.trans hnone) (Option.some_ne_none a)
  cases hc.symm.trans ha'
  refine ⟨hcalls, .published hf ?_ ?_ ?_, hret⟩
  · show s.inflight.eraseIdx j = []
    rw [hin, hj0]
    rfl
  · show (s.vq.usedIdx + 1) % 2 ^ 16 = (s.vq.lastUsed + 1) % 2 ^ 16
    rw [hused]
  · show (a.id, s.mem a.status) ∈ (id, st) :: s.completed
    rw [hstatus st rfl, ← show id = a.id from hid]
    exact mem_cons_self

lemma Inv.pollStep (hc : s.call.isSome = true) (hne : s.vq.usedIdx ≠ s.vq.lastUsed) :
    (s.step .poll).Inv := by
  obtain ⟨a, ha⟩ := Option.isSome_iff_exists.mp hc
  obtain ⟨hcalls, hphase, hret⟩ := h.active a ha
  rw [step, ha]
  cases hphase with
  | offered _ _ hused _ => exact absurd hused hne
  | taken _ _ _ _ _ hused _ => exact absurd hused hne
  | published hf hin hused hdone =>
    refine ⟨h.size, h.freeHead, h.availIdx, Nat.mod_lt _ (by decide), fun id hid => ?_, fun _ => ?_,
      fun a' ha' => (by cases ha')⟩
    · rcases mem_cons.mp hid with heq | hmem
      · obtain ⟨rfl, hok⟩ := Prod.mk.inj heq
        have hst : s.mem a.status = blkOk := of_decide_eq_true hok.symm
        rw [← hst]
        exact hdone
      · exact h.success id hmem
    refine ⟨hin, hf.trans hcalls.symm, hused, fun id ok hmem => ?_⟩
    show id < s.calls
    rcases mem_cons.mp hmem with heq | hmem
    · obtain ⟨rfl, -⟩ := Prod.mk.inj heq
      omega
    · have := hret id ok hmem
      omega

lemma Inv.step {op : Op} (ha : s.Allowed op) (ht : s.InTime op) : (s.step op).Inv := by
  cases op with
  | call write hdr buf status => exact h.callStep ha write hdr buf status
  | fetch => exact h.fetchStep ha
  | dma j data st => exact h.dmaStep ha data st
  | publish j len => exact h.publishStep ha len
  | poll => exact h.pollStep ha.1 ha.2
  | giveUp => exact absurd ht id

end

/-- **Requests are completed before their call returns**, and success means success, in every run in
which the device answers each request before the poll gives up. -/
theorem requests_safe {s : Blk} (h : Reach (Initial (3 ≤ ·)) (fun s op => s.Allowed op ∧ s.InTime op)
    step s) : s.Safe := by
  refine Inv.safe (Reach.invariant Inv ?_ (fun s op hs ha => hs.step ha.1 ha.2) h)
  rintro s ⟨maxSize, vq, mem, hvq, hsize, rfl⟩
  cases (Option.ite_none_left_eq_some.mp hvq).2
  exact ⟨hsize, lt_of_lt_of_le (by decide : 0 < 3) hsize, rfl, (by decide : 0 < 2 ^ 16),
    fun _ hid => (by cases hid), fun _ => ⟨rfl, rfl, rfl, fun _ _ hid => (by cases hid)⟩,
    fun _ ha => (by cases ha)⟩

instance (s : Blk) (op : Op) : Decidable (s.Allowed op) := by
  cases op <;> dsimp only [Allowed] <;> infer_instance

instance (s : Blk) (op : Op) : Decidable (s.InTime op) := by
  cases op <;> dsimp only [InTime] <;> infer_instance

/-- The queue a device with 256 descriptors gets, before the first call. -/
def ready : Blk :=
  { vq := { size := 16, freeHead := 0, lastUsed := 0, desc := fun _ => ⟨0, 0, 0, 0⟩, availIdx := 0,
            availRing := fun _ => 0, usedIdx := 0, usedRing := fun _ => ⟨0, 0⟩ }
    mem := fun _ => 0, calls := 0, call := none, fetched := 0, inflight := [], returned := [],
    completed := [] }

lemma ready_initial (Sizes : Nat → Prop) (h : Sizes 16) : Initial Sizes ready :=
  ⟨256, ready.vq, ready.mem, rfl, h, rfl⟩

/-- A read that succeeds, then a write that the device refuses. -/
def twoCalls : List Op :=
  [.call false 0x100 0x200 0x110, .fetch, .dma 0 (fun _ => 7) 0, .publish 0 513, .poll,
    .call true 0x100 0x200 0x110, .fetch, .dma 0 (fun _ => 0) 1, .publish 0 1, .poll]

theorem requests_safe_twoCalls : Safe (twoCalls.foldl step ready) :=
  requests_safe (Reach.obeys (.start (ready_initial _ (by decide))) (by decide +kernel))

/-- The first call gives up; the second, with its status byte at the same place of the stack, finds
the late completion of the first. -/
def lateCompletion : List Op :=
  [.call false 0x100 0x200 0x110, .fetch, .giveUp, .call false 0x100 0x400 0x110,
    .dma 0 (fun _ => 7) 0, .publish 0 513, .poll]

theorem late_completion_reported : ∃ s, Reach (Initial fun _ => True) Allowed step s ∧ ¬ s.Safe := by
  have h0 : Reach (Initial fun _ => True) Allowed step ready := .start (ready_initial _ trivial)
  refine ⟨lateCompletion.foldl step ready, h0.obeys (by decide +kernel), fun h => ?_⟩
  have hdone := h.1 1 (by decide +kernel)
  revert hdone
  decide +kernel

end Blk
end FermiOs.Virtio
