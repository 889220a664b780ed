import Tide.Common

/-!
# Buffers over runs of calls

What `tide_buffer_reserve`, `tide_buffer_append` and `tide_buffer_append_zero` do to one
buffer over any sequence of calls, whichever of the reallocations succeed.

`Buffer.request` says what a call asks `realloc` for; all else that a call does follows from
it (`bufferReserve_eq`). The bytes of a buffer are those of the calls that succeeded, and a
call that fails changes nothing that can be seen (`buffer_calls`).

The limit is compared with the bytes needed, and what is asked for is the least power of two
above them, from 256 on. It is within the limit if and only if a power of two stands between
the two (`requests_le_limit_iff`), which only a limit that is a power of two itself, or
beyond the last doubling, warrants for every run (`limit_covers_iff`).
-/

namespace Tide

/-! ### Calls -/

/-- A call on a buffer. -/
inductive BufferCall where
  | reserve (additional : ℕ)
  | append (data : Bytes)
  | appendZero (size : ℕ)
  deriving DecidableEq, Repr

namespace BufferCall

/-- What the call does to a buffer. -/
def apply (b : Buffer) : BufferCall → Status × Buffer
  | reserve additional => bufferReserve b additional
  | append data => bufferAppend b data
  | appendZero size => bufferAppendZero b size

/-- The bytes the call is to add. -/
def bytes : BufferCall → Bytes
  | reserve _ => []
  | append data => data
  | appendZero size => List.replicate size 0

/-- The bytes the call needs room for. -/
def room : BufferCall → ℕ
  | reserve additional => additional
  | append data => data.length
  | appendZero size => size

/-- A call reserves the room and adds its bytes. -/
theorem apply_eq (b : Buffer) (call : BufferCall) : call.apply b =
    if (bufferReserve b call.room).1 = .ok then
      (.ok, { (bufferReserve b call.room).2 with data := (bufferReserve b call.room).2.data ++
                                                   call.bytes })
    else bufferReserve b call.room := by
  cases call with
  | reserve additional =>
    simp only [apply, room, bytes, List.append_nil]
    split
    · exact Prod.ext ‹_› rfl
    · rfl
  | append data => exact bufferAppend_eq b data
  | appendZero size =>
    have h := bufferAppend_eq b (List.replicate size 0)
    rw [List.length_replicate] at h
    exact (bufferAppendZero_eq b size).trans h

/-- There is never more to add than there is room for. -/
theorem length_bytes_le (call : BufferCall) : call.bytes.length ≤ call.room := by
  cases call <;> simp [bytes, room]

end BufferCall

namespace Buffer

/-- The buffer after some calls. -/
def after (b : Buffer) (calls : List BufferCall) : Buffer :=
  calls.foldl (fun b call => (call.apply b).2) b

/-- The bytes of those calls that succeed. -/
def added (b : Buffer) : List BufferCall → Bytes
  | [] => []
  | call :: calls =>
      (if (call.apply b).1 = .ok then call.bytes else []) ++ (call.apply b).2.added calls

@[simp] theorem after_nil (b : Buffer) : b.after [] = b := rfl

@[simp] theorem after_cons (b : Buffer) (call : BufferCall) (calls : List BufferCall) :
    b.after (call :: calls) = (call.apply b).2.after calls := rfl

/-! ### What is asked for -/

instance (b : Buffer) (n : ℕ) : Decidable (b.Fits n) := by unfold Fits; infer_instance

/-- The capacity that `tide_buffer_reserve` asks `realloc` for, where it asks. -/
def request (b : Buffer) (additional : ℕ) : Option ℕ :=
  if b.Fits additional ∧ b.capacity < b.data.length + additional then
    some (growCapacity (b.data.length + additional) 65 (if b.capacity = 0 then 256 else b.capacity))
  else none

theorem request_eq_some_iff {b : Buffer} {n r : ℕ} : b.request n = some r ↔
    (b.Fits n ∧ b.capacity < b.data.length + n) ∧
      growCapacity (b.data.length + n) 65 (if b.capacity = 0 then 256 else b.capacity) = r := by
  unfold request
  by_cases h : b.Fits n ∧ b.capacity < b.data.length + n
  · rw [if_pos h, Option.some_inj]
    simp [h]
  · rw [if_neg h]
    simp [h]

/-- The capacities asked for over a run of calls. -/
def requests (b : Buffer) : List BufferCall → List ℕ
  | [] => []
  | call :: calls => (b.request call.room).toList ++ (call.apply b).2.requests calls

end Buffer

/-- **What reserving does**: it asks for what it asks for and takes it if it gets it; where it
does not ask, it succeeds if the bytes fit. -/
theorem bufferReserve_eq (b : Buffer) (n : ℕ) : bufferReserve b n =
    match b.request n with
    | some next =>
      if b.allocs.head then (.ok, { b with capacity := next, allocs := b.allocs.tail })
      else (.resource, { b with allocs := b.allocs.tail })
    | none => (if b.Fits n then .ok else .resource, b) := by
  by_cases hfits : b.Fits n
  · obtain ⟨hsize, hlimit⟩ := id hfits
    have hover : ¬ n > sizeMax - b.data.length := by omega
    have hbeyond : ¬ (b.data.length + n > b.aggregateLimit ∧ b.aggregateLimit ≠ 0) := by omega
    simp only [bufferReserve, if_neg hover, if_neg hbeyond]
    by_cases hcap : b.data.length + n ≤ b.capacity
    · have hnone : b.request n = none := if_neg fun h => absurd h.2 (by omega)
      rw [if_pos hcap, hnone, if_pos hfits]
    · rw [if_neg hcap, Buffer.request_eq_some_iff.mpr ⟨⟨hfits, by omega⟩, rfl⟩]
  · have hnone : b.request n = none := if_neg fun h => hfits h.1
    rw [hnone, if_neg hfits]
    simp only [bufferReserve]
    by_cases hover : n > sizeMax - b.data.length
    · rw [if_pos hover]
    · have hbeyond : b.data.length + n > b.aggregateLimit ∧ b.aggregateLimit ≠ 0 := by
        unfold Buffer.Fits at hfits
        omega
      rw [if_neg hover, if_pos hbeyond]

/-- **What a call does**: it adds its bytes, or it fails and leaves all but the allocations to
come as it was; if its bytes fit, it fails only for want of memory. -/
theorem BufferCall.apply_cases (b : Buffer) (call : BufferCall) :
    (call.apply b).2.aggregateLimit = b.aggregateLimit ∧
      ((call.apply b).1 = .ok ∧ b.Fits call.room ∧ (call.apply b).2.data = b.data ++ call.bytes ∧
          (call.apply b).2.capacity = (b.request call.room).getD b.capacity ∨
        (call.apply b).1 = .resource ∧ (call.apply b).2.data = b.data ∧
          (call.apply b).2.capacity = b.capacity ∧
          (b.Fits call.room → b.allocs.head = false)) := by
  rw [call.apply_eq, bufferReserve_eq]
  cases hreq : b.request call.room with
  | some next =>
    have hfits := (Buffer.request_eq_some_iff.mp hreq).1.1
    cases hhead : b.allocs.head <;> simp [hfits]
  | none => by_cases hfits : b.Fits call.room <;> simp [hfits]

/-! ### The doubling loop -/

/-- The loop of `tide_buffer_reserve` in the arithmetic of `size_t`, which wraps: from `next`
it comes to an end at the second number. -/
inductive Doubles (needed : ℕ) : ℕ → ℕ → Prop where
  | stop {next : ℕ} : ¬ next < needed → Doubles needed next next
  | jump {next : ℕ} : next < needed → next > sizeMax / 2 → Doubles needed next needed
  | double {next r : ℕ} : next < needed → ¬ next > sizeMax / 2 →
      Doubles needed (next * 2 % 2 ^ 64) r → Doubles needed next r

/-- The loop ends at one number. -/
theorem Doubles.unique {needed next r r' : ℕ} (h : Doubles needed next r)
    (h' : Doubles needed next r') : r = r' := by
  induction h with
  | stop hge =>
    cases h' with
    | stop _ => rfl
    | jump hlt _ => exact absurd hlt hge
    | double hlt _ _ => exact absurd hlt hge
  | jump hlt hbig =>
    cases h' with
    | stop hge => exact absurd hlt hge
    | jump _ _ => rfl
    | double _ hsmall _ => exact absurd hbig hsmall
  | double hlt hsmall _ ih =>
    cases h' with
    | stop hge => exact absurd hlt hge
    | jump _ hbig => exact absurd hbig hsmall
    | double _ _ hrest => exact ih hrest

/-- With fuel enough the loop ends, and no product wraps on the way. -/
theorem doubles_growCapacity {needed : ℕ} (hn : needed ≤ sizeMax) (fuel next : ℕ)
    (hnext : next ≤ sizeMax) (hfuel : sizeMax < next * 2 ^ fuel) :
    Doubles needed next (growCapacity needed fuel next) ∧
      growCapacity needed fuel next ≤ sizeMax := by
  have hsz : sizeMax = 2 ^ 64 - 1 := rfl
  induction fuel generalizing next with
  | zero => omega
  | succ fuel ih =>
    rw [growCapacity]
    by_cases hlt : next < needed
    · rw [if_pos hlt]
      by_cases hbig : next > sizeMax / 2
      · rw [if_pos hbig]
        exact ⟨.jump hlt hbig, hn⟩
      · rw [if_neg hbig]
        have hwrap : next * 2 % 2 ^ 64 = next * 2 := Nat.mod_eq_of_lt (by omega)
        obtain ⟨hrun, hle⟩ :=
          ih (next * 2) (by omega)
            (by rw [Nat.mul_assoc, Nat.mul_comm 2, ← Nat.pow_succ]; exact hfuel)
        exact ⟨.double hlt hbig (by rw [hwrap]; exact hrun), hle⟩
    · rw [if_neg hlt]
      exact ⟨.stop hlt, hnext⟩

/-- **The doubling loop ends** at `growCapacity`, which is room enough and a `size_t`. -/
theorem doubles_iff {needed next : ℕ} (hn : needed ≤ sizeMax) (hpos : 0 < next)
    (hnext : next ≤ sizeMax) :
    (∀ r, Doubles needed next r ↔ r = growCapacity needed 65 next) ∧
      needed ≤ growCapacity needed 65 next ∧
      growCapacity needed 65 next ≤ sizeMax := by
  obtain ⟨hrun, hle⟩ := doubles_growCapacity hn 65 next hnext (by unfold sizeMax; omega)
  refine ⟨fun r => ⟨fun h => h.unique hrun, ?_⟩, le_growCapacity hn hpos, hle⟩
  rintro rfl
  exact hrun

/-- The capacities that doubling from 256 comes to, and those beyond the last doubling. -/
def Reached (capacity : ℕ) : Prop := (∃ k, 8 ≤ k ∧ capacity = 2 ^ k) ∨ 2 ^ 63 < capacity

/-- **Where the loop ends**: where it is if that is room enough; else at what is needed if no
power of two is room enough, and at the least power of two that is if there is one. -/
theorem growCapacity_cases {needed : ℕ} (hn : needed ≤ sizeMax) (fuel next : ℕ)
    (hnext : Reached next) (hfuel : sizeMax < next * 2 ^ fuel) :
    needed ≤ next ∧ growCapacity needed fuel next = next ∨
      next < needed ∧ 2 ^ 63 < needed ∧ growCapacity needed fuel next = needed ∨
      next < needed ∧ needed ≤ 2 ^ 63 ∧ ∃ j, 8 ≤ j ∧ growCapacity needed fuel next = 2 ^ j ∧
        needed ≤ 2 ^ j ∧ 2 ^ j < 2 * needed := by
  have hsz : sizeMax = 2 ^ 64 - 1 := rfl
  induction fuel generalizing next with
  | zero => exact .inl ⟨by omega, rfl⟩
  | succ fuel ih =>
    rw [growCapacity]
    by_cases hlt : next < needed
    swap
    · rw [if_neg hlt]
      exact .inl ⟨by omega, rfl⟩
    rw [if_pos hlt]
    refine .inr ?_
    by_cases hbig : next > sizeMax / 2
    · rw [if_pos hbig]
      exact .inl ⟨hlt, by omega, rfl⟩
    rw [if_neg hbig]
    rcases hnext with ⟨k, hk, rfl⟩ | hlarge
    swap
    · omega
    have hdouble : 2 ^ k * 2 = 2 ^ (k + 1) := (Nat.pow_succ ..).symm
    have hrest := ih (2 ^ k * 2) (.inl ⟨k + 1, by omega, hdouble⟩)
      (by rw [Nat.mul_assoc, Nat.mul_comm 2, ← Nat.pow_succ]; exact hfuel)
    rcases hrest with ⟨hroom, hend⟩ | ⟨-, hlarge, hend⟩ | ⟨-, hsmall, j, hj, hend, hroom, hleast⟩
    · have hk63 : k + 1 ≤ 63 := (Nat.pow_lt_pow_iff_right (a := 2) (m := 63) (by decide)).mp
        (by omega)
      have hle : 2 ^ (k + 1) ≤ 2 ^ 63 := Nat.pow_le_pow_right (by decide) hk63
      exact .inr ⟨hlt, by omega, k + 1, by omega, hend.trans hdouble, by omega, by omega⟩
    · exact .inl ⟨hlt, hlarge, hend⟩
    · exact .inr ⟨hlt, hsmall, j, hj, hend, hroom, hleast⟩

/-! ### Over a run -/

/-- The bytes lie in a capacity that the loop comes to, a `size_t`, and within the limit. -/
structure Buffer.Backed (b : Buffer) : Prop where
  size : b.data.length ≤ b.capacity
  limit : b.aggregateLimit = 0 ∨ b.data.length ≤ b.aggregateLimit
  capacity : b.capacity = 0 ∨ Reached b.capacity
  bound : b.capacity ≤ sizeMax

theorem Buffer.backed_empty (limit : ℕ) (allocs : Stream' Bool) :
    (Buffer.empty limit allocs).Backed :=
  ⟨Nat.le_refl _, .inr (Nat.zero_le _), .inl rfl, Nat.zero_le _⟩

/-- The loop starts at a capacity it comes to. -/
theorem Buffer.Backed.start {b : Buffer} (hb : b.Backed) :
    Reached (if b.capacity = 0 then 256 else b.capacity) := by
  by_cases hzero : b.capacity = 0
  · rw [if_pos hzero]
    exact .inl ⟨8, Nat.le_refl _, rfl⟩
  · rw [if_neg hzero]
    exact hb.capacity.resolve_left hzero

theorem Reached.pos {capacity : ℕ} (h : Reached capacity) : 0 < capacity := by
  rcases h with ⟨k, -, rfl⟩ | h
  · exact Nat.two_pow_pos k
  · omega

/-- What is asked for is room enough, a capacity the loop comes to and a `size_t`. -/
theorem Buffer.Backed.request {b : Buffer} (hb : b.Backed) {n r : ℕ} (hr : b.request n = some r) :
    b.data.length + n ≤ r ∧ Reached r ∧ r ≤ sizeMax := by
  obtain ⟨⟨⟨hsize, -⟩, hcap⟩, rfl⟩ := request_eq_some_iff.mp hr
  have hstart := hb.start
  have hle : (if b.capacity = 0 then 256 else b.capacity) ≤ sizeMax := by
    split_ifs
    · decide
    · exact hb.bound
  generalize (if b.capacity = 0 then 256 else b.capacity) = start at hstart hle
  have hpos := hstart.pos
  have hsz : sizeMax = 2 ^ 64 - 1 := rfl
  have hlen := Nat.le_trans hb.size hb.bound
  have hneeded : b.data.length + n ≤ sizeMax := by omega
  obtain ⟨-, hroom, hmax⟩ := doubles_iff hneeded hpos hle
  refine ⟨hroom, ?_, hmax⟩
  rcases growCapacity_cases hneeded 65 start hstart (by omega) with ⟨-, hend⟩ | ⟨-, hlarge,
    hend⟩ | ⟨-, -, j, hj, hend, -⟩
  · rw [hend]
    exact hstart
  · rw [hend]
    exact .inr hlarge
  · rw [hend]
    exact .inl ⟨j, hj, rfl⟩

/-- A call keeps the bytes where they are to lie. -/
theorem Buffer.Backed.apply {b : Buffer} (hb : b.Backed) (call : BufferCall) :
    (call.apply b).2.Backed := by
  obtain ⟨hlim, ⟨-, hfits, hdata, hcap⟩ | ⟨-, hdata, hcap, -⟩⟩ := call.apply_cases b
  swap
  · constructor
    · rw [hdata, hcap]
      exact hb.size
    · rw [hdata, hlim]
      exact hb.limit
    · rw [hcap]
      exact hb.capacity
    · rw [hcap]
      exact hb.bound
  -- the capacity is what was asked for, or had room enough
  have hroom : b.data.length + call.room ≤ (call.apply b).2.capacity ∧
      ((call.apply b).2.capacity = 0 ∨ Reached (call.apply b).2.capacity) ∧
        (call.apply b).2.capacity ≤ sizeMax := by
    rw [hcap]
    cases hreq : b.request call.room with
    | some next =>
      obtain ⟨hroom, hreached, hmax⟩ := hb.request hreq
      exact ⟨hroom, .inr hreached, hmax⟩
    | none =>
      refine ⟨?_, hb.capacity, hb.bound⟩
      by_contra hlt
      rw [Buffer.request_eq_some_iff.mpr ⟨⟨hfits, Nat.not_le.mp hlt⟩, rfl⟩] at hreq
      cases hreq
  have hbytes := call.length_bytes_le
  have hlimit := hfits.2
  constructor
  · rw [hdata, List.length_append]
    omega
  · rw [hdata, hlim, List.length_append]
    omega
  · exact hroom.2.1
  · exact hroom.2.2

/-- What holds after any calls: the bytes are those added, they lie where they are to lie, and the
limit is the one it was. -/
theorem Buffer.after_data {b : Buffer} (hb : b.Backed) (calls : List BufferCall) :
    (b.after calls).data = b.data ++ b.added calls ∧ (b.after calls).Backed ∧
      (b.after calls).aggregateLimit = b.aggregateLimit := by
  induction calls generalizing b with
  | nil => exact ⟨(List.append_nil _).symm, hb, rfl⟩
  | cons call calls ih =>
    obtain ⟨hdata, hback, hlimit⟩ := ih (hb.apply call)
    obtain ⟨hlim, hcases⟩ := call.apply_cases b
    refine ⟨?_, hback, hlimit.trans hlim⟩
    rw [after_cons, added, hdata]
    rcases hcases with ⟨hok, -, hadd, -⟩ | ⟨hfail, hsame, -⟩
    · rw [if_pos hok, hadd, List.append_assoc]
    · rw [if_neg (by rw [hfail]; nofun), hsame, List.nil_append]

/-- **Appends are exact and atomic.** Whatever calls were made on a fresh buffer, and whichever
reallocations succeeded: the bytes are those of the calls that succeeded, within the capacity and
a limit that is not zero; a call that fails changes neither bytes nor capacity; a call that gets
the memory it asks for succeeds exactly if the size does not wrap and stays within the limit; and
the doubling loop ends, without wrapping, at a `size_t` that is room enough. -/
theorem buffer_calls (limit : ℕ) (allocs : Stream' Bool) (calls : List BufferCall) :
    let b := (Buffer.empty limit allocs).after calls
    b.data = (Buffer.empty limit allocs).added calls ∧
      b.data.length ≤ b.capacity ∧ (limit ≠ 0 → b.data.length ≤ limit) ∧
      (∀ call : BufferCall, (call.apply b).1 ≠ .ok →
        (call.apply b).2.data = b.data ∧ (call.apply b).2.capacity = b.capacity) ∧
      (∀ call : BufferCall, b.allocs.head = true →
        ((call.apply b).1 = .ok ↔
          b.data.length + call.room ≤ sizeMax ∧ (limit ≠ 0 → b.data.length + call.room ≤ limit))) ∧
      ∀ needed next, needed ≤ sizeMax → 0 < next → next ≤ sizeMax →
        (∀ r, Doubles needed next r ↔ r = growCapacity needed 65 next) ∧
          needed ≤ growCapacity needed 65 next ∧
          growCapacity needed 65 next ≤ sizeMax := by
  intro b
  obtain ⟨hdata, hback, hlimit⟩ : b.data = (Buffer.empty limit allocs).added calls ∧ b.Backed ∧
      b.aggregateLimit = limit :=
    Buffer.after_data (Buffer.backed_empty limit allocs) calls
  clear_value b
  have hsize := hback.size
  have hbound := hback.limit
  rw [hlimit] at hbound
  refine ⟨hdata, hsize, fun h => hbound.resolve_left h, ?_, ?_, fun needed next hn hpos hnext =>
    doubles_iff hn hpos hnext⟩
  · intro call hfail
    obtain ⟨-, ⟨hok, -⟩ | ⟨-, hsame, hcap, -⟩⟩ := call.apply_cases b
    · exact absurd hok hfail
    · exact ⟨hsame, hcap⟩
  · intro call hhead
    have hmax := hback.bound
    obtain ⟨-, ⟨hok, ⟨hroom, hwithin⟩, -⟩ | ⟨hfail, -, -, hwant⟩⟩ := call.apply_cases b
    · rw [hlimit] at hwithin
      exact iff_of_true hok ⟨by omega, fun h => hwithin.resolve_left h⟩
    · refine iff_of_false (by rw [hfail]; nofun) fun ⟨hroom, hwithin⟩ => ?_
      have hfits : b.Fits call.room := by
        rw [Buffer.Fits, hlimit]
        exact ⟨by omega, or_iff_not_imp_left.mpr hwithin⟩
      rw [hwant hfits] at hhead
      cases hhead

/-! ### What is asked for, and the limit -/

/-- A power of two, from 256 on, stands between what is needed and the limit; beyond the last
doubling what is needed is itself what is asked for. -/
def Covered (limit needed : ℕ) : Prop :=
  (∃ j, 8 ≤ j ∧ needed ≤ 2 ^ j ∧ 2 ^ j ≤ limit) ∨ 2 ^ 63 < needed

/-- What is asked for is within a limit that covers what is needed. -/
theorem Buffer.Backed.request_le_iff {b : Buffer} (hb : b.Backed) (hlimit : b.aggregateLimit ≠ 0)
    {n r : ℕ} (hr : b.request n = some r) :
    r ≤ b.aggregateLimit ↔ Covered b.aggregateLimit (b.data.length + n) := by
  obtain ⟨⟨⟨hsize, hwithin⟩, hcap⟩, rfl⟩ := request_eq_some_iff.mp hr
  have hstart := hb.start
  have hpos := hstart.pos
  have hsz : sizeMax = 2 ^ 64 - 1 := rfl
  have hlen := Nat.le_trans hb.size hb.bound
  have hneeded : b.data.length + n ≤ sizeMax := by omega
  -- a power of two between what is needed and the limit is not below the least one
  have least : ∀ {j i : ℕ}, 2 ^ j < 2 * (b.data.length + n) → b.data.length + n ≤ 2 ^ i →
      2 ^ i ≤ b.aggregateLimit → 2 ^ j ≤ b.aggregateLimit := by
    intro j i hj hi hle
    have hlt : 2 ^ j < 2 ^ (i + 1) := by
      rw [Nat.pow_succ]
      omega
    have hji : j ≤ i := Nat.lt_succ_iff.mp ((Nat.pow_lt_pow_iff_right (a := 2) (by decide)).mp hlt)
    exact Nat.le_trans (Nat.pow_le_pow_right (n := 2) (by decide) hji) hle
  rcases growCapacity_cases hneeded 65 _ hstart (by omega) with ⟨hroom, hend⟩ | ⟨-, hlarge,
    hend⟩ | ⟨-, hsmall, j, hj, hend, hroom, hleast⟩
  · -- the loop does not run: the buffer is a fresh one
    have hzero : b.capacity = 0 := by
      by_contra hne
      rw [if_neg hne] at hroom
      omega
    rw [hend]
    rw [if_pos hzero] at hroom ⊢
    constructor
    · intro hle
      exact .inl ⟨8, Nat.le_refl _, hroom, hle⟩
    · rintro (⟨i, hi, -, hle⟩ | hlarge)
      · exact Nat.le_trans (Nat.pow_le_pow_right (n := 2) (by decide) hi) hle
      · omega
  · rw [hend]
    exact iff_of_true (by omega) (.inr hlarge)
  · rw [hend]
    constructor
    · intro hle
      exact .inl ⟨j, hj, hroom, hle⟩
    · rintro (⟨i, -, hi, hle⟩ | hlarge)
      · exact least hleast hi hle
      · omega

/-- A call on a buffer is covered: if it has to ask for memory, the limit covers what it needs. -/
def Buffer.Covers (b : Buffer) (call : BufferCall) : Prop :=
  b.Fits call.room → b.capacity < b.data.length + call.room →
    Covered b.aggregateLimit (b.data.length + call.room)

/-- The calls that are covered are those that ask for no more than the limit. -/
theorem Buffer.Backed.covers_iff {b : Buffer} (hb : b.Backed) (hlimit : b.aggregateLimit ≠ 0)
    (call : BufferCall) :
    b.Covers call ↔ ∀ r ∈ (b.request call.room).toList, r ≤ b.aggregateLimit := by
  cases hreq : b.request call.room with
  | some next =>
    obtain ⟨⟨hfits, hcap⟩, -⟩ := request_eq_some_iff.mp hreq
    have hiff := hb.request_le_iff hlimit hreq
    constructor
    · intro h r hr
      rw [Option.toList_some, List.mem_singleton] at hr
      rw [hr]
      exact hiff.mpr (h hfits hcap)
    · intro h _ _
      exact hiff.mp (h next (by simp))
  | none =>
    refine iff_of_true (fun hfits hcap => ?_) (by simp)
    rw [request_eq_some_iff.mpr ⟨⟨hfits, hcap⟩, rfl⟩] at hreq
    cases hreq

/-- Over a run, the induction being on the calls. -/
theorem Buffer.Backed.requests_iff {b : Buffer} (hb : b.Backed) (hlimit : b.aggregateLimit ≠ 0)
    (calls : List BufferCall) :
    (∀ r ∈ b.requests calls, r ≤ b.aggregateLimit) ↔
      ∀ pre call post, calls = pre ++ call :: post → (b.after pre).Covers call := by
  induction calls generalizing b with
  | nil => exact iff_of_true (by simp [requests]) fun pre call post h => absurd h (by simp)
  | cons call calls ih =>
    have hlim := (call.apply_cases b).1
    have hrest := ih (hb.apply call) (by rw [hlim]; exact hlimit)
    rw [hlim] at hrest
    simp only [requests, List.forall_mem_append, hrest, ← hb.covers_iff hlimit]
    constructor
    · rintro ⟨hfirst, hlater⟩ (_ | ⟨_, pre⟩) call' post h
      · obtain ⟨rfl, -⟩ := List.cons.inj h
        exact hfirst
      · obtain ⟨rfl, hcalls⟩ := List.cons.inj h
        exact hlater pre call' post hcalls
    · intro h
      exact ⟨h [] call calls rfl, fun pre call' post hcalls => h (call :: pre) call' post
        (by rw [hcalls]; rfl)⟩

/-- **When the capacities asked for stay within the limit**: over a run of calls on a fresh
buffer, none of them exceeds the limit if and only if every call that has to ask for memory needs
a number of bytes that the limit covers. -/
theorem requests_le_limit_iff {limit : ℕ} (hlimit : limit ≠ 0) (allocs : Stream' Bool)
    (calls : List BufferCall) :
    (∀ r ∈ (Buffer.empty limit allocs).requests calls, r ≤ limit) ↔
      ∀ pre call post, calls = pre ++ call :: post →
        ((Buffer.empty limit allocs).after pre).Covers call :=
  (Buffer.backed_empty limit allocs).requests_iff hlimit calls

/-- A reservation of 600 bytes under a limit of 1024, a power of two. -/
theorem requests_le_limit_1024 :
    ((Buffer.empty 1024 (Stream'.const true)).after []).Covers (.reserve 600) :=
  (requests_le_limit_iff (by decide) (Stream'.const true) [.reserve 600]).mp (by decide) []
    (.reserve 600) [] rfl

/-- Under a limit of 100 bytes, a single byte takes 256. -/
theorem requests_exceed_100 :
    ¬ ∀ (limit : ℕ) (allocs : Stream' Bool) (calls : List BufferCall), limit ≠ 0 →
    ∀ r ∈ (Buffer.empty limit allocs).requests calls, r ≤ limit := by
  intro h
  exact absurd (h 100 (Stream'.const true) [.append [0]] (by decide) 256 (by decide)) (by decide)

/-- **The limits that bound every run** are those the doubling itself comes to. -/
theorem limit_covers_iff {limit : ℕ} (hlimit : limit ≠ 0) (hmax : limit ≤ sizeMax) :
    (∀ (allocs : Stream' Bool) (calls : List BufferCall),
      ∀ r ∈ (Buffer.empty limit allocs).requests calls, r ≤ limit) ↔
      Reached limit := by
  constructor
  · intro h
    -- the call that needs all of the limit
    have hall : (Buffer.empty limit (Stream'.const true)).Covers (.reserve limit) :=
      ((Buffer.backed_empty limit (Stream'.const true)).requests_iff hlimit [.reserve limit]).mp
        (h _ _) [] _ [] rfl
    have hfits : (Buffer.empty limit (Stream'.const true)).Fits limit :=
      ⟨hmax, .inr (Nat.le_of_eq (Nat.zero_add limit))⟩
    have hcap : 0 < 0 + limit := by omega
    have hcovered : Covered limit (0 + limit) := hall hfits hcap
    rw [Nat.zero_add] at hcovered
    rcases hcovered with ⟨j, hj, hle, hge⟩ | hlarge
    · exact .inl ⟨j, hj, Nat.le_antisymm hle hge⟩
    · exact .inr hlarge
  · intro hreached allocs calls
    refine ((Buffer.backed_empty limit allocs).requests_iff hlimit calls).mpr
      fun pre call post _ hfits _ => ?_
    have hlim : ((Buffer.empty limit allocs).after pre).aggregateLimit = limit :=
      (Buffer.after_data (Buffer.backed_empty limit allocs) pre).2.2
    rw [hlim]
    have hwithin := hfits.2
    rw [hlim] at hwithin
    have hneeded := hwithin.resolve_left hlimit
    by_cases hlarge : 2 ^ 63 < ((Buffer.empty limit allocs).after pre).data.length + call.room
    · exact .inr hlarge
    refine .inl ?_
    rcases hreached with ⟨k, hk, rfl⟩ | hbig
    · exact ⟨k, hk, hneeded, Nat.le_refl _⟩
    · exact ⟨63, by decide, by omega, by omega⟩

end Tide
