import Tide.Types
import Tide.Theory.Simulation
import Tide.Theory.StableQueue
import Mathlib.Data.Prod.Lex
import Mathlib.Logic.Function.Basic

/-!
# The reorder queue

The model of `src/index/reorder.c` and of the packets of `src/model/packet.c`. A
`tide_packet_ref` owns a lease on its payload and hands it on when it is moved.

The queue is an array that is kept sorted: pushing shifts the greater items up by one
and puts the new one into the gap, popping takes the first item and shifts the others
down. `items` gives what the memory holds at each index. What it holds beyond the items
that were written is arbitrary, and a capacity is a number of items that were allocated,
so that doubling it does not wrap.

What the queue is for is said by `StableQueue`, which knows nothing of arrays. The two
answer every call alike (`reorderQueue_agrees`).
-/

namespace Tide

open Theory

/-! ### `packet.c` -/

/-- `tide_payload_lease`: which block of memory it is, its number and the bytes it holds. -/
structure Lease where
  block : ℕ
  leaseId : UInt64
  data : Bytes
  deriving DecidableEq

/-- `tide_packet_ref`: the packet, with the bytes of its view for `info.payload`, the lease
its view names, and the lease it owns. -/
structure PacketRef where
  info : PacketInfo
  viewLease : Option Lease
  lease : Option Lease
  deriving DecidableEq

/-- `tide_packet_ref_init`: all bytes zero. -/
def packetRefInit : PacketRef := ⟨.zero, none, none⟩

/-- `tide_packet_ref_reset`: the lease that is released, and the packet of zeros. -/
def packetRefReset (packet : PacketRef) : Option Lease × PacketRef := (packet.lease, packetRefInit)

/-- What `tide_packet_ref_move` does to two packets, and the lease it releases. -/
structure Moved where
  released : Option Lease
  dst : PacketRef
  src : PacketRef

/-- `tide_packet_ref_move`, from one packet to another. -/
def packetRefMove (dst src : PacketRef) : Moved where
  released := (packetRefReset dst).1
  dst :=
    match src.lease with
    | none => src
    | some lease =>
        { info := { src.info with payload := lease.data }, viewLease := some lease,
          lease := some lease }
  src := packetRefInit

/-- The view of a packet names the lease and spans all of it, as the demuxer makes it. -/
def PacketRef.Whole (packet : PacketRef) : Prop :=
  ∀ lease, packet.lease = some lease → packet.info.payload = lease.data ∧
    packet.viewLease = some lease

/-- Moving such a packet changes nothing of it. -/
theorem PacketRef.Whole.move {packet : PacketRef} (h : packet.Whole) (dst : PacketRef) :
    (packetRefMove dst packet).dst = packet := by
  rcases packet with ⟨info, viewLease, lease⟩
  cases lease with
  | none => rfl
  | some lease =>
    obtain ⟨hpayload, hview⟩ := h lease rfl
    simp only [packetRefMove]
    rw [PacketRef.mk.injEq]
    exact ⟨by rw [← hpayload], hview.symm, rfl⟩

/-! ### `reorder.c` -/

/-- `tide_reorder_item`. -/
structure ReorderItem where
  packet : PacketRef
  epoch : UInt64
  deriving DecidableEq

/-- `tide_reorder_queue`; `allocs` are the outcomes of the reallocations to come. -/
structure ReorderQueue where
  items : ℕ → ReorderItem
  count : ℕ
  capacity : ℕ
  limit : ℕ
  allocs : Stream' Bool

/-- `tide_packet_less`. -/
def packetLess (a : PacketRef) (epochA : UInt64) (b : PacketRef) (epochB : UInt64) : Bool :=
  if epochA ≠ epochB then epochA < epochB
  else if a.info.pts ≠ b.info.pts then a.info.pts < b.info.pts
  else if a.info.dts ≠ b.info.dts then a.info.dts < b.info.dts
  else a.info.packetSeq < b.info.packetSeq

/-- `tide_reorder_queue_init`. -/
def reorderQueueInit (queue : ReorderQueue) (limit : ℕ) : Status × ReorderQueue :=
  if limit = 0 then
    (.invalidArgument, queue) else (.ok, { queue with count := 0, capacity := 0, limit := limit })

/-- Room for one more item. -/
def ReorderQueue.grow (queue : ReorderQueue) : Status × ReorderQueue :=
  if queue.count = queue.capacity then
    let next := if queue.capacity = 0 then 8 else queue.capacity * 2
    let next := if next > queue.limit then queue.limit else next
    if queue.allocs.head then (.ok, { queue with capacity := next, allocs := queue.allocs.tail })
    else (.resource, { queue with allocs := queue.allocs.tail })
  else (.ok, queue)

/-- The loop of `tide_reorder_queue_push`: from `pos` down, the items that the packet is less
than are shifted up. -/
def shiftUp (packet : PacketRef) (epoch : UInt64) : ℕ → (ℕ → ReorderItem) → ℕ × (ℕ → ReorderItem)
  | 0, items => (0, items)
  | pos + 1, items =>
    if packetLess packet epoch (items pos).packet (items pos).epoch then
      shiftUp packet epoch pos (Function.update items (pos + 1) (items pos))
    else (pos + 1, items)

/-- What a call does to the caller's packet: the status, the packet afterwards, and the lease
that is released. -/
structure Answer where
  status : Status
  packet : PacketRef
  released : Option Lease
  deriving DecidableEq

/-- `tide_reorder_queue_push`. -/
def reorderQueuePush (queue : ReorderQueue) (packet : PacketRef)
    (epoch : UInt64) : Answer × ReorderQueue :=
  if queue.count ≥ queue.limit then (⟨.resource, packet, none⟩, queue)
  else
    match queue.grow with
    | (.ok, queue) =>
      let shifted := shiftUp packet epoch queue.count queue.items
      let moved := packetRefMove packetRefInit packet
      (⟨.ok, moved.src, moved.released⟩,
        { queue with items := Function.update shifted.2 shifted.1 ⟨moved.dst, epoch⟩,
                     count := queue.count + 1 })
    | (status, queue) => (⟨status, packet, none⟩, queue)

/-- The loop of `tide_reorder_queue_pop_ready` from the `i`-th item on, with `n` rounds to go. -/
def shiftDown : (n i : ℕ) → (ℕ → ReorderItem) → ℕ → ReorderItem
  | 0, _, items => items
  | n + 1, i, items => shiftDown n (i + 1) (Function.update items (i - 1) (items i))

/-- `tide_reorder_queue_pop_ready`. -/
def reorderQueuePopReady (queue : ReorderQueue) (out : PacketRef) : Answer × ReorderQueue :=
  if queue.count = 0 then (⟨.wouldBlock, out, none⟩, queue)
  else
    let moved := packetRefMove packetRefInit (queue.items 0).packet
    let items := Function.update queue.items 0 ⟨moved.src, (queue.items 0).epoch⟩
    (⟨.ok, moved.dst, moved.released⟩, { queue with items := shiftDown (queue.count - 1) 1 items,
                                                    count := queue.count - 1 })

/-- `tide_reorder_queue_destroy`: the leases that are released, and the empty queue. -/
def reorderQueueDestroy (queue : ReorderQueue) : List (Option Lease) × ReorderQueue :=
  ((List.range queue.count).map fun i => (packetRefReset (queue.items i).packet).1,
    { queue with count := 0, capacity := 0 })

/-- A call of the queue, with the packet that the caller hands over or wants to be filled. -/
inductive ReorderCall where
  | push (packet : PacketRef) (epoch : UInt64)
  | popReady (out : PacketRef)

/-- Calling the queue. -/
def ReorderQueue.call (queue : ReorderQueue) : ReorderCall → Answer × ReorderQueue
  | .push packet epoch => reorderQueuePush queue packet epoch
  | .popReady out => reorderQueuePopReady queue out

/-! ### What the queue is for -/

/-- What the items are sorted by: epoch, presentation time, decoding time and sequence
number. -/
def ReorderItem.key (item : ReorderItem) : ℕ ×ₗ ℤ ×ₗ ℤ ×ₗ ℕ :=
  toLex (item.epoch.toNat, toLex (item.packet.info.pts.toInt, toLex (item.packet.info.dts.toInt,
    item.packet.info.packetSeq.toNat)))

/-- Calling the abstract queue: it is full, or it takes the packet and leaves zeros; it is
empty, or it gives a packet as it was. No lease is released. -/
def pendingCall (queue : StableQueue ReorderItem) : ReorderCall → Answer × StableQueue ReorderItem
  | .push packet epoch =>
    match queue.push ⟨packet, epoch⟩ with
    | none => (⟨.resource, packet, none⟩, queue)
    | some queue => (⟨.ok, packetRefInit, none⟩, queue)
  | .popReady out =>
    match queue.pop ReorderItem.key with
    | none => (⟨.wouldBlock, out, none⟩, queue)
    | some (item, queue) => (⟨.ok, item.packet, none⟩, queue)

/-- The packets that are pushed have views that span their leases. -/
def ReorderCall.Whole : ReorderCall → Prop
  | .push packet _ => packet.Whole
  | .popReady _ => True

/-- `tide_packet_less` compares the keys. -/
theorem packetLess_iff (x y : ReorderItem) :
    packetLess x.packet x.epoch y.packet y.epoch = true ↔ KeyLt ReorderItem.key x y := by
  simp only [KeyLt, ReorderItem.key, Prod.Lex.toLex_lt_toLex, ← UInt64.lt_iff_toNat_lt,
    UInt64.toNat_inj, ← Int64.lt_iff_toInt_lt, Int64.toInt_inj]
  unfold packetLess
  by_cases hepoch : x.epoch = y.epoch
  swap; · simp [hepoch]
  by_cases hpts : x.packet.info.pts = y.packet.info.pts
  swap; · simp [hepoch, hpts]
  by_cases hdts : x.packet.info.dts = y.packet.info.dts
  swap; · simp [hepoch, hpts, hdts]
  simp [hepoch, hpts, hdts]

/-! ### The loops -/

/-- Shifting up ends at or below where it began. -/
theorem shiftUp_fst_le (packet : PacketRef) (epoch : UInt64) (pos : ℕ) (items : ℕ → ReorderItem) :
    (shiftUp packet epoch pos items).1 ≤ pos := by
  induction pos generalizing items with
  | zero => exact Nat.le_refl _
  | succ pos ih =>
    rw [shiftUp]
    split
    · exact Nat.le_succ_of_le (ih _)
    · exact Nat.le_refl _

/-- Shifting up leaves what is above alone. -/
theorem shiftUp_above (packet : PacketRef) (epoch : UInt64) {pos j : ℕ} (hj : pos < j)
    (items : ℕ → ReorderItem) :
    (shiftUp packet epoch pos items).2 j = items j := by
  induction pos generalizing items with
  | zero => rfl
  | succ pos ih =>
    rw [shiftUp]
    split
    · rw [ih (by omega), Function.update_of_ne (by omega)]
    · rfl

/-- The items at the first indices, in order. -/
def itemsBelow (items : ℕ → ReorderItem) (n : ℕ) : List ReorderItem := (List.range n).map items

theorem itemsBelow_succ (items : ℕ → ReorderItem) (n : ℕ) :
    itemsBelow items (n + 1) = itemsBelow items n ++ [items n] := by
  rw [itemsBelow, itemsBelow, List.range_succ, List.map_append]
  rfl

theorem itemsBelow_congr {items items' : ℕ → ReorderItem} {n : ℕ}
    (h : ∀ j < n, items j = items' j) :
    itemsBelow items n = itemsBelow items' n :=
  List.map_congr_left fun j hj => h j (List.mem_range.mp hj)

section

variable {α κ : Type} [LinearOrder κ] {key : α → κ}

/-- An item that is less than the last one goes before it. -/
theorem orderedInsert_concat_of_lt {x y : α} (h : KeyLt key x y) (l : List α) :
    (l ++ [y]).orderedInsert (KeyLt key) x = l.orderedInsert (KeyLt key) x ++ [y] := by
  induction l with
  | nil => simp [h]
  | cons b l ih =>
    rw [List.cons_append, List.orderedInsert_cons, List.orderedInsert_cons, ih]
    split <;> rfl

/-- An item that is less than none goes to the end. -/
theorem orderedInsert_eq_concat {x : α} {l : List α} (h : ∀ y ∈ l, ¬ KeyLt key x y) :
    l.orderedInsert (KeyLt key) x = l ++ [x] := by
  induction l with
  | nil => rfl
  | cons b l ih =>
    rw [List.orderedInsert_of_not_le _ _ (h b (List.mem_cons_self ..)),
      ih fun y hy => h y (List.mem_cons_of_mem _ hy)]
    rfl

end

/-- **The loop of `tide_reorder_queue_push`** puts the new item behind those that are not
greater, when the items are sorted. -/
theorem itemsBelow_shiftUp (x : ReorderItem) (n : ℕ) (items : ℕ → ReorderItem)
    (hsorted : (itemsBelow items n).Pairwise (KeyLe ReorderItem.key)) :
    itemsBelow (Function.update (shiftUp x.packet x.epoch n items).2
      (shiftUp x.packet x.epoch n items).1 x) (n + 1) =
      (itemsBelow items n).orderedInsert (KeyLt ReorderItem.key) x := by
  induction n generalizing items with
  | zero => simp [itemsBelow, shiftUp]
  | succ n ih =>
    rw [itemsBelow_succ items] at hsorted ⊢
    obtain ⟨hinit, -, hlast⟩ := List.pairwise_append.mp hsorted
    rw [shiftUp]
    by_cases hless : packetLess x.packet x.epoch (items n).packet (items n).epoch = true
    · -- the last item moves up and the loop goes on below it
      have hbelow : itemsBelow (Function.update items (n + 1) (items n)) n = itemsBelow items n :=
        itemsBelow_congr fun j hj => Function.update_of_ne (by omega) ..
      have hle := shiftUp_fst_le x.packet x.epoch n (Function.update items (n + 1) (items n))
      rw [if_pos hless, itemsBelow_succ, ih _ (by rw [hbelow]; exact hinit), hbelow,
        Function.update_of_ne (by omega), shiftUp_above _ _ (Nat.lt_succ_self n),
          Function.update_self, orderedInsert_concat_of_lt ((packetLess_iff x (items n)).mp hless)]
    · have hge : ReorderItem.key (items n) ≤ ReorderItem.key x :=
        not_lt.mp fun h => hless ((packetLess_iff x (items n)).mpr h)
      have hall : ∀ y ∈ itemsBelow items n ++ [items n], ¬ KeyLt ReorderItem.key x y := by
        intro y hy
        rcases List.mem_append.mp hy with hy | hy
        · exact not_lt.mpr (le_trans (hlast y hy (items n) (List.mem_singleton_self _)) hge)
        · rw [List.mem_singleton.mp hy]
          exact not_lt.mpr hge
      have hbelow : itemsBelow (Function.update items (n + 1) x) (n + 1) =
          itemsBelow items (n + 1) :=
        itemsBelow_congr fun j hj => Function.update_of_ne (by omega) ..
      rw [if_neg hless, orderedInsert_eq_concat hall, itemsBelow_succ, hbelow, Function.update_self,
        itemsBelow_succ items]

/-- **The loop of `tide_reorder_queue_pop_ready`**: each item moves down by one. -/
theorem shiftDown_apply (n : ℕ) {i : ℕ} (hi : 1 ≤ i) (items : ℕ → ReorderItem) (j : ℕ) :
    shiftDown n i items j = if i - 1 ≤ j ∧ j < i - 1 + n then items (j + 1) else items j := by
  induction n generalizing i items with
  | zero => rw [shiftDown, if_neg (by omega)]
  | succ n ih =>
    rw [shiftDown, ih (by omega)]
    by_cases hj : j = i - 1
    · subst hj
      rw [if_neg (by omega), if_pos (by omega), Function.update_self, Nat.sub_add_cancel hi]
    by_cases hin : i ≤ j ∧ j < i + n
    · rw [if_pos (by omega), if_pos (by omega), Function.update_of_ne (by omega)]
    · rw [if_neg (by omega), if_neg (by omega), Function.update_of_ne hj]

/-- Behind the first item, the items of the array are those that are left. -/
theorem itemsBelow_shiftDown (n : ℕ) (items : ℕ → ReorderItem) (first : ReorderItem) :
    itemsBelow items (n + 1) =
      items 0 :: itemsBelow (shiftDown n 1 (Function.update items 0 first)) n := by
  rw [itemsBelow, List.range_succ_eq_map, List.map_cons, List.map_map]
  refine congrArg (items 0 :: ·) (List.map_congr_left fun j hj => ?_)
  have hlt := List.mem_range.mp hj
  rw [shiftDown_apply n (Nat.le_refl 1), if_pos (by omega), Function.update_of_ne (by omega)]
  rfl

/-! ### The array and the queue -/

/-- The array holds the items of the queue, sorted, and they fit. -/
structure Holding (queue : ReorderQueue) (pending : StableQueue ReorderItem) : Prop where
  limit : queue.limit = pending.limit
  sorted : itemsBelow queue.items queue.count = pending.held.insertionSort (KeyLe ReorderItem.key)
  capacity : queue.count ≤ queue.capacity
  capacity_le : queue.capacity ≤ queue.limit
  whole : ∀ item ∈ pending.held, item.packet.Whole
  allocs : queue.allocs = Stream'.const true

theorem Holding.count_eq {queue : ReorderQueue} {pending : StableQueue ReorderItem}
    (h : Holding queue pending) :
    queue.count = pending.held.length := by
  have := congrArg List.length h.sorted
  simpa [itemsBelow] using this

/-- There is room for one more item below the limit. -/
theorem ReorderQueue.grow_ok {queue : ReorderQueue} (hcount : queue.count < queue.limit)
    (hcap : queue.count ≤ queue.capacity) (hle : queue.capacity ≤ queue.limit)
    (hallocs : queue.allocs = Stream'.const true) :
    ∃ capacity, queue.grow = (.ok, { queue with capacity := capacity }) ∧
      queue.count + 1 ≤ capacity ∧ capacity ≤ queue.limit := by
  have hhead : queue.allocs.head = true := by rw [hallocs]; rfl
  have htail : queue.allocs.tail = queue.allocs := by rw [hallocs]; rfl
  unfold ReorderQueue.grow
  by_cases hfull : queue.count = queue.capacity
  · rw [if_pos hfull, if_pos hhead, htail]
    refine ⟨_, rfl, ?_, ?_⟩
    · split_ifs <;> omega
    · split_ifs <;> omega
  · rw [if_neg hfull]
    exact ⟨queue.capacity, rfl, by omega, hle⟩

/-- Pushing answers like the queue and keeps the array sorted. -/
theorem Holding.push {queue : ReorderQueue} {pending : StableQueue ReorderItem}
    (h : Holding queue pending) {packet : PacketRef} (hpacket : packet.Whole) (epoch : UInt64) :
    (reorderQueuePush queue packet epoch).1 = (pendingCall pending (.push packet epoch)).1 ∧
      Holding (reorderQueuePush queue packet epoch).2
        (pendingCall pending (.push packet epoch)).2 := by
  have hcount := h.count_eq
  have hlimit := h.limit
  unfold reorderQueuePush pendingCall StableQueue.push
  dsimp only
  by_cases hfull : queue.count ≥ queue.limit
  · rw [if_pos hfull, if_pos (by omega)]
    exact ⟨rfl, h⟩
  rw [if_neg hfull, if_neg (by omega)]
  obtain ⟨capacity, hgrow, hroom, hcap⟩ :=
    ReorderQueue.grow_ok (by omega) h.capacity h.capacity_le h.allocs
  rw [hgrow]
  refine ⟨rfl, hlimit, ?_, hroom, hcap, ?_, h.allocs⟩
  · dsimp only
    rw [hpacket.move, itemsBelow_shiftUp ⟨packet, epoch⟩ queue.count queue.items
      (by rw [h.sorted]; exact List.pairwise_insertionSort ..), h.sorted, insertionSort_concat]
  · intro item hitem
    rcases List.mem_append.mp hitem with hitem | hitem
    · exact h.whole item hitem
    · rw [List.mem_singleton.mp hitem]
      exact hpacket

/-- Popping answers like the queue and keeps the array sorted. -/
theorem Holding.pop {queue : ReorderQueue} {pending : StableQueue ReorderItem}
    (h : Holding queue pending) (out : PacketRef) :
    (reorderQueuePopReady queue out).1 = (pendingCall pending (.popReady out)).1 ∧
      Holding (reorderQueuePopReady queue out).2 (pendingCall pending (.popReady out)).2 := by
  have hcount := h.count_eq
  have hcap := h.capacity
  unfold reorderQueuePopReady pendingCall StableQueue.pop
  dsimp only
  cases hmin : pending.held.argmin ReorderItem.key with
  | none =>
    have hnil : pending.held = [] := List.argmin_eq_none.mp hmin
    rw [if_pos (by rw [hcount, hnil]; rfl)]
    exact ⟨rfl, h⟩
  | some item =>
    have hmem : item ∈ pending.held := List.argmin_mem hmin
    have hpos := List.length_pos_of_mem hmem
    -- the first item of the array is the one the queue takes, and the others are what is left
    have hsorted := h.sorted
    rw [insertionSort_argmin hmin, show queue.count = queue.count - 1 + 1 by omega,
      itemsBelow_shiftDown _ _ ⟨packetRefInit, (queue.items 0).epoch⟩, List.cons.injEq] at hsorted
    obtain ⟨hfirst, hrest⟩ := hsorted
    rw [if_neg (by omega), hfirst, (h.whole item hmem).move]
    rw [hfirst] at hrest
    refine ⟨rfl, h.limit, hrest, ?_, h.capacity_le,
      fun other hother => h.whole other (List.mem_of_mem_erase hother), h.allocs⟩
    change queue.count - 1 ≤ queue.capacity
    omega

/-- A queue that has just been initialised holds nothing. -/
theorem holding_init {queue : ReorderQueue} (hallocs : queue.allocs = Stream'.const true)
    {limit : ℕ} (hlimit : 1 ≤ limit) :
    (reorderQueueInit queue limit).1 = .ok ∧
      Holding (reorderQueueInit queue limit).2 ⟨limit, []⟩ := by
  rw [reorderQueueInit, if_neg (by omega)]
  exact ⟨rfl, rfl, rfl, Nat.le_refl _, Nat.zero_le _, by simp, hallocs⟩

/-! ### Filling and draining -/

/-- The queue takes the items as long as there is room. -/
theorem answers_push (items : List ReorderItem) (queue : StableQueue ReorderItem)
    (hroom : queue.held.length + items.length ≤ queue.limit) :
    answers pendingCall queue (items.map fun item => .push item.packet item.epoch) =
      (items.map fun _ => ⟨.ok, packetRefInit, none⟩,
        { queue with held := queue.held ++ items }) := by
  induction items generalizing queue with
  | nil => simp [answers]
  | cons item items ih =>
    rw [List.length_cons] at hroom
    have hpush : pendingCall queue (.push item.packet item.epoch) =
        (⟨.ok, packetRefInit, none⟩, { queue with held := queue.held ++ [item] }) := by
      rw [pendingCall, StableQueue.push, if_neg (by omega)]
    rw [List.map_cons, answers, hpush, ih _ (by simp; omega)]
    simp

/-- The queue gives its items one after the other. -/
theorem answers_popReady (outs : List PacketRef) (queue : StableQueue ReorderItem)
    (hlen : outs.length = queue.held.length) :
    (answers pendingCall queue (outs.map .popReady)).1 =
      (queue.drain ReorderItem.key outs.length).map fun item => ⟨.ok, item.packet, none⟩ := by
  induction outs generalizing queue with
  | nil => rfl
  | cons out outs ih =>
    rw [List.map_cons, answers, List.length_cons, StableQueue.drain, pendingCall, StableQueue.pop]
    cases hmin : queue.held.argmin ReorderItem.key with
    | none =>
      rw [List.argmin_eq_none.mp hmin] at hlen
      cases hlen
    | some item =>
      have herase := List.length_erase_of_mem (List.argmin_mem hmin)
      rw [List.length_cons] at hlen
      exact congrArg (_ :: ·) (ih _ (by change outs.length = (queue.held.erase item).length; omega))

/-- **The reorder queue is a bounded stable priority queue**: whatever is called, it answers
as the abstract queue does; and filled with a list that fits and then drained, it gives
the stable sort of the list. -/
theorem reorderQueue_agrees (queue : ReorderQueue) (hallocs : queue.allocs = Stream'.const true)
    (limit : ℕ) (hlimit : 1 ≤ limit) :
    (reorderQueueInit queue limit).1 = .ok ∧
      (∀ calls : List ReorderCall, (∀ c ∈ calls, c.Whole) →
        (answers ReorderQueue.call (reorderQueueInit queue limit).2 calls).1 =
          (answers pendingCall ⟨limit, []⟩ calls).1) ∧
      ∀ (items : List ReorderItem) (outs : List PacketRef), (∀ item ∈ items, item.packet.Whole) →
        items.length ≤ limit →
        outs.length = items.length →
        ∃ sorted, IsStableSort ReorderItem.key items sorted ∧
          (answers ReorderQueue.call (reorderQueueInit queue limit).2
              (items.map (fun item => .push item.packet item.epoch) ++ outs.map .popReady)).1 =
            items.map (fun _ => ⟨.ok, packetRefInit, none⟩) ++ sorted.map fun item =>
              ⟨.ok, item.packet, none⟩ := by
  obtain ⟨hok, hinit⟩ := holding_init hallocs hlimit
  have hagree : ∀ calls : List ReorderCall, (∀ c ∈ calls, c.Whole) →
      (answers ReorderQueue.call (reorderQueueInit queue limit).2 calls).1 =
        (answers pendingCall ⟨limit, []⟩ calls).1 := by
    intro calls hcalls
    refine (answers_eq (fun q p c h hc => ?_) hinit hcalls).1
    cases c with
    | push packet epoch => exact h.push hc epoch
    | popReady out => exact h.pop out
  refine ⟨hok, hagree, fun items outs hwhole hfits hlen => ?_⟩
  refine ⟨StableQueue.drain ReorderItem.key outs.length ⟨limit, items⟩, ?_, ?_⟩
  · exact StableQueue.drain_isStableSort ReorderItem.key ⟨limit, items⟩ (Nat.le_of_eq hlen.symm)
  · rw [hagree _ ?_, answers_append, answers_push items ⟨limit, []⟩ (by simpa using hfits),
      List.nil_append, answers_popReady outs ⟨limit, items⟩ hlen]
    intro c hc
    rcases List.mem_append.mp hc with hc | hc
    · obtain ⟨item, hitem, rfl⟩ := List.mem_map.mp hc
      exact hwhole item hitem
    · obtain ⟨out, -, rfl⟩ := List.mem_map.mp hc
      trivial

/-- A packet as the demuxer makes it, with a lease on its payload. -/
def leased (leaseId : UInt64) (info : PacketInfo) : PacketRef :=
  ⟨info, some ⟨leaseId.toNat, leaseId, info.payload⟩, some ⟨leaseId.toNat, leaseId, info.payload⟩⟩

theorem leased_whole (leaseId : UInt64) (info : PacketInfo) : (leased leaseId info).Whole := by
  intro lease hlease
  obtain rfl := Option.some.inj hlease
  exact ⟨rfl, rfl⟩

/-- Three packets of one epoch, the first of which is to be shown last and the others at the
same time. -/
def threeItems : List ReorderItem :=
  [⟨leased 1 ⟨1, 0, 2, 0, 20, 0, 0, [1]⟩, 0⟩, ⟨leased 2 ⟨1, 0, 1, -5, -10, 0, 0, [2]⟩, 0⟩,
    ⟨leased 3 ⟨1, 0, 1, -5, -10, 0, 0, [3]⟩, 0⟩]

theorem threeItems_reordered :
    let queue : ReorderQueue := ⟨fun _ => ⟨packetRefInit, 0⟩, 0, 0, 0, Stream'.const true⟩
    (reorderQueueInit queue 4).1 = .ok ∧
      ∃ sorted, IsStableSort ReorderItem.key threeItems sorted ∧
        (answers ReorderQueue.call (reorderQueueInit queue 4).2
            (threeItems.map (fun item => .push item.packet item.epoch) ++
              (List.replicate 3 packetRefInit).map .popReady)).1 =
          threeItems.map (fun _ => ⟨.ok, packetRefInit, none⟩) ++ sorted.map fun item =>
            ⟨.ok, item.packet, none⟩ := by
  intro queue
  obtain ⟨hok, -, hsort⟩ := reorderQueue_agrees queue rfl 4 (by decide)
  refine ⟨hok, hsort threeItems (List.replicate 3 packetRefInit) ?_ (by decide) rfl⟩
  simp [threeItems, leased_whole]

end Tide
