import Tide.Demux
import Tide.Reorder
import Tide.Theory.RefCount
import Mathlib.Algebra.BigOperators.Group.Finset.Piecewise
import Mathlib.Data.Fintype.Basic

/-!
# Leases

The model of `src/model/lease.c`, and of the program that uses it: the caller's packets, the
reorder queues and the leases that were retained. A lease counts its owners, which are the
packets that hold it, in the hands of the caller or in the slots of a queue below its count,
and those who retained it.

Each call is a `RefCounts.Step` of the counts and the owners (`Leasing.call_step`). All are
sound but two: `tide_reorder_queue_pop_ready` wipes its `out` without a release, and a
counter of 32 bits cannot count further than that. So the counts are right throughout a run
if and only if it has no such call (`leases_balance_iff`).
-/

namespace Tide

open Theory

/-! ### `lease.c` -/

/-- All leases: what is counted of them, `next_id`, and the outcomes of the allocations to
come. -/
structure LeaseHeap where
  counts : RefCounts Lease
  nextId : UInt64
  allocs : Stream' Bool

/-- `tide_payload_lease_create_copy`. The blocks are numbered as they are allocated. -/
def LeaseHeap.payloadLeaseCreateCopy (heap : LeaseHeap) (data : Option Bytes) (size : ℕ) :
    Option Lease × LeaseHeap :=
  if data.isNone ∧ size ≠ 0 then (none, heap)
  else if !heap.allocs.head then (none, { heap with allocs := heap.allocs.tail })
  else if size ≠ 0 ∧ !heap.allocs.tail.head then
    (none, { heap with allocs := heap.allocs.tail.tail })
  else
    let lease : Lease := ⟨heap.counts.made.length, heap.nextId, (data.getD []).take size⟩
    (some lease,
      { counts := heap.counts.make lease
        nextId := heap.nextId + 1
        allocs := if size ≠ 0 then heap.allocs.tail.tail else heap.allocs.tail })

/-- The demuxer sees the bytes of such a lease, and nothing else of it. -/
theorem LeaseHeap.payloadLeaseCreateCopy_data (heap : LeaseHeap) (data : Bytes) :
    ((heap.payloadLeaseCreateCopy (some data) data.length).1.map Lease.data,
      (heap.payloadLeaseCreateCopy (some data) data.length).2.allocs) =
      Tide.payloadLeaseCreateCopy data heap.allocs := by
  unfold LeaseHeap.payloadLeaseCreateCopy Tide.payloadLeaseCreateCopy
  cases heap.allocs.head <;> cases heap.allocs.tail.head <;> by_cases hlen : data.length ≠ 0 <;>
    simp [hlen]

/-- `tide_payload_lease_retain`. -/
def payloadLeaseRetain (heap : LeaseHeap) : Option Lease → LeaseHeap
  | none => heap
  | some lease => { heap with counts := heap.counts.retain lease }

/-- `tide_payload_lease_release`. -/
def payloadLeaseRelease (heap : LeaseHeap) : Option Lease → LeaseHeap
  | none => heap
  | some lease => { heap with counts := heap.counts.release lease }

/-! ### A program with leases -/

/-- The leases, the packets of the caller, the queues, and what was retained. -/
structure Leasing (ι κ : Type) where
  heap : LeaseHeap
  refs : ι → PacketRef
  queues : κ → ReorderQueue
  retained : List Lease

/-- A call, with the packets and queues that are handed over. -/
inductive LeaseCall (ι κ : Type) where
  /-- The lease is stored in a packet, with its bytes for the view. -/
  | createCopy (packet : ι) (info : PacketInfo) (data : Option Bytes) (size : ℕ)
  | retain (lease : Lease)
  | release (lease : Lease)
  | reset (packet : ι)
  | move (dst src : ι)
  | push (queue : κ) (packet : ι) (epoch : UInt64)
  | popReady (queue : κ) (out : ι)
  | destroy (queue : κ)

/-- A packet with a lease that was made for it. -/
def storeLease (info : PacketInfo) (lease : Option Lease) : PacketRef where
  info := { info with payload := (lease.map Lease.data).getD [] }
  viewLease := lease
  lease := lease

variable {ι κ : Type}

/-- Calling. -/
def Leasing.call [DecidableEq ι] [DecidableEq κ] (s : Leasing ι κ) : LeaseCall ι κ → Leasing ι κ
  | .createCopy packet info data size =>
    let created := s.heap.payloadLeaseCreateCopy data size
    { s with heap := created.2, refs := Function.update s.refs packet (storeLease info created.1) }
  | .retain lease =>
      { s with heap := payloadLeaseRetain s.heap (some lease), retained := lease :: s.retained }
  | .release lease =>
      { s with heap := payloadLeaseRelease s.heap (some lease), retained := s.retained.erase lease }
  | .reset packet =>
    let reset := packetRefReset (s.refs packet)
    { s with heap := payloadLeaseRelease s.heap reset.1,
             refs := Function.update s.refs packet reset.2 }
  | .move dst src =>
    -- a packet is not moved to itself
    if dst = src then s
    else
      let moved := packetRefMove (s.refs dst) (s.refs src)
      { s with
        heap := payloadLeaseRelease s.heap moved.released
        refs := Function.update (Function.update s.refs dst moved.dst) src moved.src }
  | .push queue packet epoch =>
    let pushed := reorderQueuePush (s.queues queue) (s.refs packet) epoch
    { s with
      heap := payloadLeaseRelease s.heap pushed.1.released
      refs := Function.update s.refs packet pushed.1.packet
      queues := Function.update s.queues queue pushed.2 }
  | .popReady queue out =>
    let popped := reorderQueuePopReady (s.queues queue) (s.refs out)
    { s with
      heap := payloadLeaseRelease s.heap popped.1.released
      refs := Function.update s.refs out popped.1.packet
      queues := Function.update s.queues queue popped.2 }
  | .destroy queue =>
    let destroyed := reorderQueueDestroy (s.queues queue)
    { s with heap := destroyed.1.foldl payloadLeaseRelease s.heap,
             queues := Function.update s.queues queue destroyed.2 }

theorem payloadLeaseRelease_counts (heap : LeaseHeap) (o : Option Lease) :
    (payloadLeaseRelease heap o).counts = heap.counts.releaseAll o.toList := by
  cases o <;> rfl

/-- Releasing the leases of several packets. -/
theorem foldl_release_counts (heap : LeaseHeap) (os : List (Option Lease)) :
    (os.foldl payloadLeaseRelease heap).counts = heap.counts.releaseAll (os.filterMap id) := by
  induction os generalizing heap with
  | nil => rfl
  | cons o os ih =>
    rw [List.foldl_cons, ih, payloadLeaseRelease_counts]
    cases o <;> rfl

/-- A lease that is made is the first of its block. -/
theorem LeaseHeap.payloadLeaseCreateCopy_cases (heap : LeaseHeap) (data : Option Bytes) (size : ℕ) :
    ((heap.payloadLeaseCreateCopy data size).1 = none ∧
      (heap.payloadLeaseCreateCopy data size).2.counts = heap.counts) ∨
      ∃ lease, (heap.payloadLeaseCreateCopy data size).1 = some lease ∧
        lease.block = heap.counts.made.length ∧
        (heap.payloadLeaseCreateCopy data size).2.counts = heap.counts.make lease := by
  unfold LeaseHeap.payloadLeaseCreateCopy
  split
  · exact .inl ⟨rfl, rfl⟩
  split
  · exact .inl ⟨rfl, rfl⟩
  split
  · exact .inl ⟨rfl, rfl⟩
  · exact .inr ⟨_, rfl, rfl, rfl⟩

/-- The blocks of the leases are numbers below that of the next. -/
def Leasing.Numbered (s : Leasing ι κ) : Prop :=
  ∀ lease ∈ s.heap.counts.made, lease.block < s.heap.counts.made.length

/-- A call makes one lease, or none. -/
theorem Leasing.call_numbered [DecidableEq ι] [DecidableEq κ] {s : Leasing ι κ} (hn : s.Numbered)
    (c : LeaseCall ι κ) :
    (s.call c).Numbered := by
  have hmade : (s.call c).heap.counts.made = s.heap.counts.made → (s.call c).Numbered := by
    intro hmade
    unfold Numbered
    rwa [hmade]
  cases c with
  | createCopy packet info data size =>
    obtain ⟨-, hcounts⟩ | ⟨lease, -, hblock, hcounts⟩ :=
      s.heap.payloadLeaseCreateCopy_cases data size
    · exact hmade (congrArg RefCounts.made hcounts)
    · intro other hother
      rw [show (s.call (.createCopy packet info data size)).heap.counts =
        _ from hcounts] at hother ⊢
      simp only [RefCounts.make, List.mem_append, List.mem_singleton, List.length_append,
        List.length_singleton] at hother ⊢
      rcases hother with hother | rfl
      · exact Nat.lt_succ_of_lt (hn other hother)
      · omega
  | retain | release => exact hmade rfl
  | reset | push | popReady =>
    apply hmade
    simp only [call]
    rw [payloadLeaseRelease_counts, RefCounts.releaseAll_made]
  | move dst src =>
    apply hmade
    simp only [call]
    split
    · rfl
    · rw [payloadLeaseRelease_counts, RefCounts.releaseAll_made]
  | destroy queue =>
    apply hmade
    simp only [call]
    rw [foldl_release_counts, RefCounts.releaseAll_made]

/-! ### Who owns a lease -/

/-- The leases that a queue holds in its slots below `count`. -/
def ReorderQueue.held (queue : ReorderQueue) : List Lease :=
  (itemsBelow queue.items queue.count).filterMap fun item => item.packet.lease

variable [Fintype ι] [Fintype κ]

/-- How many own a lease: the packets of the caller that hold it, the slots of the queues
that do, and those who retained it. -/
def Leasing.holders (s : Leasing ι κ) (lease : Lease) : ℕ :=
  (Finset.univ.filter fun i => (s.refs i).lease = some lease).card +
    ∑ k, (itemsBelow (s.queues k).items (s.queues k).count).countP
      (fun item => item.packet.lease = some lease) +
    s.retained.count lease

/-- Nobody holds a lease any more: the packets are reset, the queues destroyed and what was
retained is released. -/
structure Leasing.Settled (s : Leasing ι κ) : Prop where
  refs : ∀ i, (s.refs i).lease = none
  queues : ∀ k, (s.queues k).count = 0
  retained : s.retained = []

/-- **The accounting balances**: a lease that was not freed counts its owners, and when
all is settled every lease was freed once. -/
structure Leasing.Balances (s : Leasing ι κ) : Prop where
  count : ∀ lease ∈ s.heap.counts.made, s.heap.counts.frees lease = 0 →
    (s.heap.counts.count lease).toNat = s.holders lease
  freed : s.Settled → ∀ lease ∈ s.heap.counts.made, s.heap.counts.frees lease = 1

/-- What a call asks for: a lease is stored in an empty packet, only a lease that somebody holds
is retained, and only what was retained is released. -/
def LeaseCall.Legal (s : Leasing ι κ) : LeaseCall ι κ → Prop
  | .createCopy packet _ _ _ => (s.refs packet).lease = none
  | .retain lease => 0 < s.holders lease
  | .release lease => lease ∈ s.retained
  | _ => True

/-- A call that keeps the accounts: no counter at its end is counted further, and no packet
with a lease is filled from a queue. -/
def LeaseCall.Keeps (s : Leasing ι κ) : LeaseCall ι κ → Prop
  | .retain lease => (s.heap.counts.count lease).toNat + 1 < 2 ^ 32
  | .popReady queue out => (s.queues queue).count ≠ 0 → (s.refs out).lease = none
  | _ => True

/-- All owners, each once for every lease it holds. -/
def Leasing.owners (s : Leasing ι κ) : Multiset Lease :=
  ∑ i, ((s.refs i).lease.toList : Multiset Lease) + ∑ k, ((s.queues k).held : Multiset Lease) +
    s.retained

theorem count_toList (o : Option Lease) (lease : Lease) :
    o.toList.count lease = if o = some lease then 1 else 0 := by
  cases o with
  | none => rfl
  | some other => simp [List.count_singleton]

/-- The owners are those that are counted. -/
theorem Leasing.count_owners (s : Leasing ι κ) (lease : Lease) :
    s.owners.count lease = s.holders lease := by
  rw [owners, holders, Multiset.count_add, Multiset.count_add, Multiset.count_sum',
    Multiset.count_sum', Finset.card_filter]
  simp only [Multiset.coe_count, count_toList, ReorderQueue.held, List.count_filterMap,
    beq_eq_decide]

/-! ### What the functions do to the owners -/

/-- Moving a packet moves its lease. -/
theorem packetRefMove_lease (dst src : PacketRef) :
    (packetRefMove dst src).dst.lease = src.lease := by
  unfold packetRefMove
  cases h : src.lease with
  | none => exact h
  | some lease => rfl

/-- The loop of `tide_reorder_queue_push` loses no item, sorted or not. -/
theorem itemsBelow_shiftUp_perm (packet : PacketRef) (epoch : UInt64) (x : ReorderItem) (n : ℕ)
    (items : ℕ → ReorderItem) :
    (itemsBelow (Function.update (shiftUp packet epoch n items).2 (shiftUp packet epoch n items).1
      x) (n + 1)).Perm
      (x :: itemsBelow items n) := by
  induction n generalizing items with
  | zero => simp [itemsBelow, shiftUp]
  | succ n ih =>
    rw [itemsBelow_succ items]
    rw [shiftUp]
    split
    · -- the last item moves up and the loop goes on below it
      have hbelow : itemsBelow (Function.update items (n + 1) (items n)) n = itemsBelow items n :=
        itemsBelow_congr fun j hj => Function.update_of_ne (by omega) ..
      have hle := shiftUp_fst_le packet epoch n (Function.update items (n + 1) (items n))
      have hrest := ih (Function.update items (n + 1) (items n))
      rw [hbelow] at hrest
      rw [itemsBelow_succ, Function.update_of_ne (by omega), shiftUp_above _ _ (Nat.lt_succ_self n),
        Function.update_self]
      exact hrest.append_right _
    · have hbelow : itemsBelow (Function.update items (n + 1) x) (n + 1) =
          itemsBelow items (n + 1) :=
        itemsBelow_congr fun j hj => Function.update_of_ne (by omega) ..
      rw [itemsBelow_succ, hbelow, Function.update_self, itemsBelow_succ items]
      exact List.perm_append_singleton ..

/-- Making room leaves the items alone. -/
theorem ReorderQueue.grow_items (queue : ReorderQueue) :
    queue.grow.2.items = queue.items ∧ queue.grow.2.count = queue.count := by
  unfold grow
  dsimp only
  split_ifs <;> exact ⟨rfl, rfl⟩

/-- **Pushing** hands the lease of the packet over to the queue, or leaves it where it is. -/
theorem reorderQueuePush_held (queue : ReorderQueue) (packet : PacketRef) (epoch : UInt64) :
    (reorderQueuePush queue packet epoch).1.released = none ∧
      (((reorderQueuePush queue packet epoch).1.packet.lease.toList : Multiset Lease) +
        (reorderQueuePush queue packet epoch).2.held) =
        packet.lease.toList + queue.held := by
  unfold reorderQueuePush
  split
  · exact ⟨rfl, rfl⟩
  obtain ⟨hitems, hcount⟩ := queue.grow_items
  split
  · rename_i grown hgrow
    simp only [hgrow] at hitems hcount
    refine ⟨rfl, ?_⟩
    have hperm := (itemsBelow_shiftUp_perm packet epoch ⟨(packetRefMove packetRefInit packet).dst,
      epoch⟩ grown.count grown.items).filterMap
      fun item => item.packet.lease
    have hheld := Multiset.coe_eq_coe.mpr hperm
    simp only [ReorderQueue.held]
    rw [hheld, List.filterMap_cons, packetRefMove_lease, hitems, hcount]
    cases packet.lease <;> simp [packetRefMove, packetRefInit]
  · rename_i grown _ hgrow
    simp only [hgrow] at hitems hcount
    refine ⟨rfl, ?_⟩
    simp only [ReorderQueue.held, hitems, hcount]

/-- **Popping** hands a lease over to the packet, unless the queue is empty. -/
theorem reorderQueuePopReady_held (queue : ReorderQueue) (out : PacketRef) :
    (reorderQueuePopReady queue out).1.released = none ∧
      (queue.count = 0 → (reorderQueuePopReady queue out).1.packet = out ∧
        (reorderQueuePopReady queue out).2 = queue) ∧
      (queue.count ≠ 0 → (((reorderQueuePopReady queue out).1.packet.lease.toList :
        Multiset Lease) +
        (reorderQueuePopReady queue out).2.held) = queue.held) := by
  unfold reorderQueuePopReady
  split
  · rename_i hzero
    exact ⟨rfl, fun _ => ⟨rfl, rfl⟩, fun h => absurd hzero h⟩
  · rename_i hcount
    refine ⟨rfl, fun h => absurd h hcount, fun _ => ?_⟩
    have hbelow := itemsBelow_shiftDown (queue.count - 1) queue.items
      ⟨(packetRefMove packetRefInit (queue.items 0).packet).src, (queue.items 0).epoch⟩
    rw [show queue.count - 1 + 1 = queue.count by omega] at hbelow
    simp only [ReorderQueue.held]
    rw [hbelow, List.filterMap_cons, packetRefMove_lease]
    cases (queue.items 0).packet.lease <;> simp

/-- Destroying a queue releases what it holds. -/
theorem reorderQueueDestroy_held (queue : ReorderQueue) :
    (reorderQueueDestroy queue).1.filterMap id = queue.held ∧
      (reorderQueueDestroy queue).2.held = [] := by
  unfold reorderQueueDestroy ReorderQueue.held itemsBelow
  rw [List.filterMap_map, List.filterMap_map]
  exact ⟨rfl, rfl⟩

/-! ### Each call is a step -/

/-- The owners when a packet holds something else. -/
theorem Leasing.owners_update_ref [DecidableEq ι] (s : Leasing ι κ) (heap : LeaseHeap) (i : ι)
    (packet : PacketRef) :
    ({ s with heap := heap, refs := Function.update s.refs i packet } : Leasing ι κ).owners +
      (s.refs i).lease.toList =
      s.owners + packet.lease.toList := by
  have hsum := sum_update_add s.refs (fun packet => (packet.lease.toList : Multiset Lease)) i packet
  ext lease
  have hcount := congrArg (Multiset.count lease) hsum
  simp only [owners, Multiset.count_add] at hcount ⊢
  omega

/-- The owners when a queue holds something else. -/
theorem Leasing.owners_update_queue [DecidableEq κ] (s : Leasing ι κ) (heap : LeaseHeap) (k : κ)
    (queue : ReorderQueue) :
    ({ s with heap := heap, queues := Function.update s.queues k queue } : Leasing ι κ).owners +
      (s.queues k).held =
      s.owners + queue.held := by
  have hsum := sum_update_add s.queues (fun queue => (queue.held : Multiset Lease)) k queue
  ext lease
  have hcount := congrArg (Multiset.count lease) hsum
  simp only [owners, Multiset.count_add] at hcount ⊢
  omega

section

variable [DecidableEq ι] [DecidableEq κ] {s : Leasing ι κ}

theorem Leasing.owners_createCopy {packet : ι} (hempty : (s.refs packet).lease = none)
    (info : PacketInfo) (data : Option Bytes) (size : ℕ) :
    (s.call (.createCopy packet info data size)).owners = s.owners +
      (s.heap.payloadLeaseCreateCopy data size).1.toList := by
  have howners := s.owners_update_ref (s.heap.payloadLeaseCreateCopy data size).2 packet
    (storeLease info (s.heap.payloadLeaseCreateCopy data size).1)
  rw [hempty, Option.toList_none, Multiset.coe_nil, add_zero] at howners
  exact howners

theorem Leasing.owners_retain (s : Leasing ι κ) (lease : Lease) :
    (s.call (.retain lease)).owners = lease ::ₘ s.owners := by
  simp only [call, owners]
  rw [← Multiset.cons_coe, Multiset.add_cons]

theorem Leasing.owners_release {lease : Lease} (h : lease ∈ s.retained) :
    s.owners = lease ::ₘ (s.call (.release lease)).owners := by
  simp only [call, owners]
  rw [← Multiset.add_cons, Multiset.cons_coe, Multiset.coe_eq_coe.mpr (List.perm_cons_erase h)]

theorem Leasing.owners_reset (s : Leasing ι κ) (packet : ι) :
    s.owners = ((s.refs packet).lease.toList : Multiset Lease) +
      (s.call (.reset packet)).owners := by
  have howners := s.owners_update_ref (payloadLeaseRelease s.heap (s.refs packet).lease)
    packet packetRefInit
  rw [show packetRefInit.lease.toList = [] from rfl, Multiset.coe_nil, add_zero] at howners
  rw [add_comm]
  exact howners.symm

theorem Leasing.owners_move (s : Leasing ι κ) {dst src : ι} (hne : dst ≠ src) :
    s.owners = ((s.refs dst).lease.toList : Multiset Lease) + (s.call (.move dst src)).owners := by
  have hlease := packetRefMove_lease (s.refs dst) (s.refs src)
  simp only [call, if_neg hne]
  have hdst := s.owners_update_ref s.heap dst (packetRefMove (s.refs dst) (s.refs src)).dst
  rw [hlease] at hdst
  -- the source gives up what the destination has got
  have hsrc := ({ s with refs := Function.update s.refs dst
                           (packetRefMove (s.refs dst) (s.refs src)).dst } :
    Leasing ι κ).owners_update_ref
      (payloadLeaseRelease s.heap (packetRefMove (s.refs dst) (s.refs src)).released) src
      (packetRefMove (s.refs dst) (s.refs src)).src
  rw [show (packetRefMove (s.refs dst) (s.refs src)).src.lease.toList = [] from rfl,
    Multiset.coe_nil, add_zero] at hsrc
  simp only [Function.update_of_ne hne.symm] at hsrc
  rw [← hsrc, add_right_comm] at hdst
  rw [add_comm]
  exact (add_right_cancel hdst).symm

/-- The owners when a packet and a queue hold something else. -/
theorem Leasing.owners_update (s : Leasing ι κ) (heap : LeaseHeap) (i : ι) (packet : PacketRef)
    (k : κ) (queue : ReorderQueue) :
    ({ s with heap := heap, refs := Function.update s.refs i packet,
              queues := Function.update s.queues k queue } : Leasing ι κ).owners +
        ((s.refs i).lease.toList + (s.queues k).held) = s.owners +
          (packet.lease.toList + queue.held) := by
  have hrefs := sum_update_add s.refs
    (fun packet => (packet.lease.toList : Multiset Lease)) i packet
  have hqueues := sum_update_add s.queues (fun queue => (queue.held : Multiset Lease)) k queue
  ext lease
  have hrefs' := congrArg (Multiset.count lease) hrefs
  have hqueues' := congrArg (Multiset.count lease) hqueues
  simp only [owners, Multiset.count_add] at hrefs' hqueues' ⊢
  omega

theorem Leasing.owners_push (s : Leasing ι κ) (queue : κ) (packet : ι) (epoch : UInt64) :
    (s.call (.push queue packet epoch)).owners = s.owners := by
  have howners := s.owners_update (s.call (.push queue packet epoch)).heap packet
    (reorderQueuePush (s.queues queue) (s.refs packet) epoch).1.packet queue
      (reorderQueuePush (s.queues queue) (s.refs packet) epoch).2
  rw [(reorderQueuePush_held (s.queues queue) (s.refs packet) epoch).2] at howners
  exact add_right_cancel howners

theorem Leasing.owners_popReady_empty (s : Leasing ι κ) {queue : κ}
    (hempty : (s.queues queue).count = 0) (out : ι) :
    (s.call (.popReady queue out)).owners = s.owners := by
  obtain ⟨hpacket, hqueue⟩ := (reorderQueuePopReady_held (s.queues queue) (s.refs out)).2.1 hempty
  have hheld : ((reorderQueuePopReady (s.queues queue) (s.refs out)).1.packet.lease.toList :
      Multiset Lease) + (reorderQueuePopReady (s.queues queue) (s.refs out)).2.held =
        (s.refs out).lease.toList + (s.queues queue).held := by
    rw [hpacket, hqueue]
  have howners := s.owners_update (s.call (.popReady queue out)).heap out
    (reorderQueuePopReady (s.queues queue) (s.refs out)).1.packet queue
      (reorderQueuePopReady (s.queues queue) (s.refs out)).2
  rw [hheld] at howners
  exact add_right_cancel howners

/-- A packet that is filled from a queue loses what it held. -/
theorem Leasing.owners_popReady (s : Leasing ι κ) {queue : κ} (hcount : (s.queues queue).count ≠ 0)
    (out : ι) :
    s.owners = ((s.refs out).lease.toList : Multiset Lease) +
      (s.call (.popReady queue out)).owners := by
  have howners := s.owners_update (s.call (.popReady queue out)).heap out
    (reorderQueuePopReady (s.queues queue) (s.refs out)).1.packet queue
      (reorderQueuePopReady (s.queues queue) (s.refs out)).2
  rw [(reorderQueuePopReady_held (s.queues queue) (s.refs out)).2.2 hcount, ← add_assoc] at howners
  rw [add_comm]
  exact (add_right_cancel howners).symm

theorem Leasing.owners_destroy (s : Leasing ι κ) (queue : κ) :
    s.owners = ((s.queues queue).held : Multiset Lease) + (s.call (.destroy queue)).owners := by
  have howners := s.owners_update_queue (s.call (.destroy queue)).heap queue
    (reorderQueueDestroy (s.queues queue)).2
  rw [(reorderQueueDestroy_held (s.queues queue)).2, Multiset.coe_nil, add_zero] at howners
  rw [add_comm]
  exact howners.symm

/-- **Each call is a step** of the counts and the owners, and it is sound if it keeps the
accounts. -/
theorem Leasing.call_step (hn : s.Numbered) {c : LeaseCall ι κ} (hlegal : c.Legal s) :
    ∃ sound, RefCounts.Step s.heap.counts s.owners sound (s.call c).heap.counts (s.call c).owners ∧
      (sound ↔ c.Keeps s) := by
  cases c with
  | createCopy packet info data size =>
    have howners := owners_createCopy hlegal info data size
    refine ⟨True, ?_, Iff.rfl⟩
    obtain ⟨hnone, hcounts⟩ | ⟨lease, hsome, hblock, hcounts⟩ :=
      s.heap.payloadLeaseCreateCopy_cases data size
    · rw [hnone, Option.toList_none, Multiset.coe_nil, add_zero] at howners
      exact .of_keep hcounts howners
    · have hnew : lease ∉ s.heap.counts.made := fun hmem => absurd (hn lease hmem) (by omega)
      rw [hsome, Option.toList_some, Multiset.coe_singleton, add_comm,
        Multiset.singleton_add] at howners
      rw [howners, show (s.call (.createCopy packet info data size)).heap.counts = _ from hcounts]
      exact .make s.owners lease hnew
  | retain lease =>
    have hmem : lease ∈ s.owners := by rw [← Multiset.count_pos, s.count_owners]; exact hlegal
    refine ⟨_, ?_, Iff.rfl⟩
    rw [s.owners_retain]
    exact .retain s.owners lease hmem
  | release lease =>
    have howners : s.owners = (([lease] : List Lease) : Multiset Lease) +
        (s.call (.release lease)).owners := owners_release hlegal
    exact ⟨True, .of_release rfl howners, Iff.rfl⟩
  | reset packet =>
      exact ⟨True, .of_release (payloadLeaseRelease_counts ..) (s.owners_reset packet), Iff.rfl⟩
  | move dst src =>
    refine ⟨True, ?_, Iff.rfl⟩
    by_cases heq : dst = src
    · rw [show s.call (.move dst src) = s by rw [call, if_pos heq]]
      exact .keep s.owners
    · refine .of_release ?_ (s.owners_move heq)
      simp only [call, if_neg heq]
      exact payloadLeaseRelease_counts ..
  | push queue packet epoch =>
    refine ⟨True, .of_keep ?_ (s.owners_push queue packet epoch), Iff.rfl⟩
    simp only [call]
    rw [(reorderQueuePush_held (s.queues queue) (s.refs packet) epoch).1]
    rfl
  | popReady queue out =>
    have hcounts : (s.call (.popReady queue out)).heap.counts = s.heap.counts := by
      simp only [call]
      rw [(reorderQueuePopReady_held (s.queues queue) (s.refs out)).1]
      rfl
    by_cases hcount : (s.queues queue).count = 0
    · exact ⟨True, .of_keep hcounts (s.owners_popReady_empty hcount out),
        iff_of_true trivial fun h => absurd hcount h⟩
    · have howners := s.owners_popReady hcount out
      rw [hcounts]
      cases hlease : (s.refs out).lease with
      | none =>
        rw [hlease, Option.toList_none, Multiset.coe_nil, zero_add] at howners
        exact ⟨True, .of_keep rfl howners.symm, iff_of_true trivial fun _ => hlease⟩
      | some lease =>
        -- the lease that `out` held is lost
        rw [hlease, Option.toList_some, Multiset.coe_singleton, Multiset.singleton_add] at howners
        rw [howners]
        refine ⟨False, .forget _ lease, iff_of_false id fun h => ?_⟩
        rw [h hcount] at hlease
        cases hlease
  | destroy queue =>
    refine ⟨True, .of_release ?_ (s.owners_destroy queue), Iff.rfl⟩
    rw [← (reorderQueueDestroy_held (s.queues queue)).1]
    exact foldl_release_counts ..

end

/-! ### Runs -/

/-- The program begins: no lease was made, the packets are initialised, and so are the
queues. -/
structure Leasing.Initial (s : Leasing ι κ) : Prop where
  counts : s.heap.counts = .empty
  refs : ∀ i, s.refs i = packetRefInit
  queues : ∀ k, ∃ queue limit, reorderQueueInit queue limit = (.ok, s.queues k)
  retained : s.retained = []

/-- The invariant of a run that keeps the accounts. -/
structure Leasing.Kept (s : Leasing ι κ) : Prop where
  balanced : s.heap.counts.Balanced s.owners
  numbered : s.Numbered

/-- Nobody owns a lease when all is settled. -/
theorem Leasing.Settled.owners {s : Leasing ι κ} (h : s.Settled) : s.owners = 0 := by
  unfold Leasing.owners
  simp [h.refs, h.retained, ReorderQueue.held, h.queues, itemsBelow]

theorem Leasing.Kept.balances {s : Leasing ι κ} (h : s.Kept) : s.Balances := by
  constructor
  · intro lease hmade hlive
    rw [← s.count_owners]
    apply h.balanced.count
    by_contra hnone
    rw [h.balanced.frees lease hmade, if_neg hnone] at hlive
    cases hlive
  · intro hsettled lease hmade
    rw [h.balanced.frees lease hmade, if_neg (by simp [hsettled.owners])]

theorem Leasing.Initial.kept {s : Leasing ι κ} (h : s.Initial) : s.Kept := by
  have hqueues : ∀ k, (s.queues k).count = 0 := by
    intro k
    obtain ⟨queue, limit, hinit⟩ := h.queues k
    unfold reorderQueueInit at hinit
    split at hinit
    · cases hinit
    · rw [Prod.mk.injEq] at hinit
      rw [← hinit.2]
  have howners : s.owners = 0 :=
    Settled.owners ⟨fun i => by rw [h.refs i]; rfl, hqueues, h.retained⟩
  constructor
  · rw [h.counts, howners]
    exact RefCounts.balanced_empty
  · intro lease hmade
    rw [h.counts] at hmade
    cases hmade

variable [DecidableEq ι] [DecidableEq κ]

/-- **When the accounts of leases balance**: throughout a run, a lease counts its owners, and
when all is settled every lease was freed once, if and only if each call keeps the
accounts. -/
theorem leases_balance_iff {s : Leasing ι κ} (hs : s.Initial) {calls : List (LeaseCall ι κ)}
    (hlegal : AtEach Leasing.call LeaseCall.Legal s calls) :
    Throughout Leasing.call Leasing.Balances s calls ↔
      AtEach Leasing.call LeaseCall.Keeps s calls := by
  refine throughout_iff (I := Leasing.Kept) (fun _ h => h.balances) ?_ ?_ hs.kept hlegal
  · intro s c h hc hkeeps
    obtain ⟨sound, hstep, hsound⟩ := Leasing.call_step h.numbered hc
    exact ⟨hstep.balanced h.balanced (hsound.mpr hkeeps), Leasing.call_numbered h.numbered c⟩
  · intro s c h hc hbalances
    obtain ⟨sound, hstep, hsound⟩ := Leasing.call_step h.numbered hc
    refine hsound.mp (hstep.sound_of_count h.balanced fun lease hmade hlive => ?_)
    rw [hbalances.count lease hmade hlive, Leasing.count_owners]

/-- A program with two packets and a queue for four. -/
def leasingStart : Leasing Bool Unit where
  heap := ⟨.empty, 1, Stream'.const true⟩
  refs _ := packetRefInit
  queues _ := ⟨fun _ => ⟨packetRefInit, 0⟩, 0, 0, 4, Stream'.const true⟩
  retained := []

theorem leasingStart_initial : leasingStart.Initial :=
  ⟨rfl, fun _ => rfl, fun _ => ⟨⟨fun _ => ⟨packetRefInit, 0⟩, 0, 0, 0, Stream'.const true⟩, 4,
    rfl⟩, rfl⟩

/-- A packet goes through the queue and back to where it was, and its lease is retained for a
while. -/
def drainedCalls : List (LeaseCall Bool Unit) :=
  [.createCopy false .zero (some [1]) 1, .push () false 0, .retain ⟨0, 1, [1]⟩, .popReady () false,
    .reset false, .release ⟨0, 1, [1]⟩, .destroy ()]

theorem drainedCalls_balance :
    Throughout Leasing.call Leasing.Balances leasingStart drainedCalls := by
  have hlegal : AtEach Leasing.call LeaseCall.Legal leasingStart drainedCalls :=
    ⟨rfl, trivial, show 0 <
      Leasing.holders _ _ by decide, trivial, trivial, List.mem_cons_self .., trivial, trivial⟩
  have hkeeps : AtEach Leasing.call LeaseCall.Keeps leasingStart drainedCalls :=
    ⟨trivial, trivial, show _ < 2 ^ 32 by decide, fun _ => rfl, trivial, trivial, trivial, trivial⟩
  exact (leases_balance_iff leasingStart_initial hlegal).mpr hkeeps

/-- The packet comes back into one that still holds another. -/
def leakingCalls : List (LeaseCall Bool Unit) :=
  [.createCopy false .zero (some [1]) 1, .push () false 0, .createCopy true .zero (some [2]) 1,
    .popReady () true]

/-- The lease of the other one counts an owner, and has none. -/
theorem leakingCalls_leak :
    ¬ ∀ (s : Leasing Bool Unit) (calls : List (LeaseCall Bool Unit)), s.Initial →
      AtEach Leasing.call LeaseCall.Legal s calls →
      Throughout Leasing.call Leasing.Balances s calls := by
  intro h
  have hlegal : AtEach Leasing.call LeaseCall.Legal leasingStart leakingCalls :=
    ⟨rfl, trivial, rfl, trivial, trivial⟩
  obtain ⟨-, -, -, -, hlast⟩ := h leasingStart leakingCalls leasingStart_initial hlegal
  have hcount := Leasing.Balances.count hlast ⟨1, 2, [2]⟩
    (List.mem_cons_of_mem _ (List.mem_cons_self ..)) rfl
  revert hcount
  decide

end Tide
