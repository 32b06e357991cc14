import Flan.Lib.Ring
import Flan.Lib.Runs

/-! The run queue of `proc/sched.c`: threads on a ring of `next` and `prev`
pointers, entered at `queue.start` and extended at `queue.end`. Pointers are
addresses and `NULL` is zero. -/
namespace Flan.Proc
open Flan.Lib

/-- Where a `thread->state` pointer leads: nowhere, to the frame `kheap_calloc`
gave the thread, or to the fixed IST1 frame of a CPU. -/
inductive FrameRef where
  | null
  | heap (thread : Nat)
  | ist (cpu : Nat)
  deriving DecidableEq, Repr

/-- The fields of `struct thread` that the scheduler reads or writes. The
defaults are those of a `kheap_calloc`ed record. -/
structure Thread where
  prev : Nat := 0
  next : Nat := 0
  cr3 : Nat := 0
  running : Bool := false
  lock : Nat := 0
  state : FrameRef := .null
  timeslice : Nat := 0
  enqueued : Bool := false
  blocked : Bool := false
  gsBase : Nat := 0
  deriving DecidableEq, Repr

/-- `CAS(&lock->lock, 0, 1)`. -/
def spinlockTestAndAcq (lock : Nat) : Bool × Nat := if lock = 0 then (true, 1) else (false, lock)

/-- `CAS(&lock->lock, 1, 0)`. -/
def spinlockRelease (lock : Nat) : Nat := if lock = 1 then 0 else lock

/-- Thread memory together with the global `queue`. Its lock is left out: both
operations below run as one atomic step. -/
structure RunQueue where
  threads : Nat → Thread
  queueStart : Nat
  queueEnd : Nat

namespace RunQueue

def modify (q : RunQueue) (t : Nat) (f : Thread → Thread) : RunQueue :=
  { q with threads := Function.update q.threads t (f (q.threads t)) }

def next (q : RunQueue) (t : Nat) : Nat := (q.threads t).next
def prev (q : RunQueue) (t : Nat) : Nat := (q.threads t).prev
def enqueued (q : RunQueue) (t : Nat) : Bool := (q.threads t).enqueued

def setNext (q : RunQueue) (t v : Nat) : RunQueue := q.modify t fun r => { r with next := v }
def setPrev (q : RunQueue) (t v : Nat) : RunQueue := q.modify t fun r => { r with prev := v }
def setEnd (q : RunQueue) (v : Nat) : RunQueue := { q with queueEnd := v }

def markEnqueued (q : RunQueue) (t : Nat) : RunQueue :=
  q.modify t fun r => { r with enqueued := true }

/-- `spinlock_release(&thread->lock)` and the two flags `dequeue_thread` clears. -/
def markDequeued (q : RunQueue) (t : Nat) : RunQueue :=
  q.modify t fun r =>
    { r with lock := spinlockRelease r.lock, enqueued := false, running := false }

end RunQueue

/-- The branch taken when the queue has never held a thread. -/
def openQueue (q : RunQueue) (thread : Nat) : RunQueue :=
  if q.queueStart = 0 ∨ q.queueEnd = 0 then { q with queueStart := thread, queueEnd := thread }
  else q

def linkAtEnd (q : RunQueue) (thread : Nat) : RunQueue :=
  let q := q.setPrev thread q.queueEnd
  let q := q.setNext q.queueEnd thread
  let q := q.setEnd thread
  let q := q.setNext thread q.queueStart
  let q := q.setPrev q.queueStart thread
  q.markEnqueued thread

def schedEnqueueThread (q : RunQueue) (thread : Nat) : RunQueue :=
  if q.enqueued thread then q else linkAtEnd (openQueue q thread) thread

def unlink (q : RunQueue) (thread : Nat) : RunQueue :=
  let q := q.setPrev (q.next thread) (q.prev thread)
  let q := q.setNext (q.prev thread) (q.next thread)
  q.markDequeued thread

def dequeueThread (q : RunQueue) (thread : Nat) : RunQueue :=
  if q.enqueued thread then unlink q thread else q

/-! ### What the two operations do to the links -/

section Links
variable (q : RunQueue) (thread v x : Nat)

theorem modify_threads (f : Thread → Thread) : (q.modify thread f).threads x =
    if x = thread then f (q.threads thread) else q.threads x := by
  simp only [RunQueue.modify, Function.update_apply]

/-- A change that keeps a field of one record keeps it in the whole memory. -/
theorem modify_field {β : Type} (g : Thread → β) (f : Thread → Thread)
    (hf : ∀ r, g (f r) = g r) : g ((q.modify thread f).threads x) = g (q.threads x) := by
  simp only [RunQueue.modify, Function.update_apply]
  split
  · subst x; exact hf _
  · rfl

@[simp] theorem setNext_next :
    (q.setNext thread v).next x = if x = thread then v else q.next x := by
  simp only [RunQueue.next, RunQueue.setNext, RunQueue.modify, Function.update_apply]
  split <;> rfl

@[simp] theorem setPrev_prev :
    (q.setPrev thread v).prev x = if x = thread then v else q.prev x := by
  simp only [RunQueue.prev, RunQueue.setPrev, RunQueue.modify, Function.update_apply]
  split <;> rfl

@[simp] theorem setNext_prev : (q.setNext thread v).prev x = q.prev x :=
  modify_field q thread x Thread.prev _ (fun _ => rfl)

@[simp] theorem setPrev_next : (q.setPrev thread v).next x = q.next x :=
  modify_field q thread x Thread.next _ (fun _ => rfl)

@[simp] theorem markEnqueued_next : (q.markEnqueued thread).next x = q.next x :=
  modify_field q thread x Thread.next _ (fun _ => rfl)

@[simp] theorem markEnqueued_prev : (q.markEnqueued thread).prev x = q.prev x :=
  modify_field q thread x Thread.prev _ (fun _ => rfl)

@[simp] theorem markDequeued_next : (q.markDequeued thread).next x = q.next x :=
  modify_field q thread x Thread.next _ (fun _ => rfl)

@[simp] theorem markDequeued_prev : (q.markDequeued thread).prev x = q.prev x :=
  modify_field q thread x Thread.prev _ (fun _ => rfl)

@[simp] theorem setNext_enqueued : (q.setNext thread v).enqueued x = q.enqueued x :=
  modify_field q thread x Thread.enqueued _ (fun _ => rfl)

@[simp] theorem setPrev_enqueued : (q.setPrev thread v).enqueued x = q.enqueued x :=
  modify_field q thread x Thread.enqueued _ (fun _ => rfl)

@[simp] theorem markEnqueued_enqueued :
    (q.markEnqueued thread).enqueued x = if x = thread then true else q.enqueued x := by
  simp only [RunQueue.enqueued, RunQueue.markEnqueued, RunQueue.modify, Function.update_apply]
  split <;> rfl

@[simp] theorem markDequeued_enqueued :
    (q.markDequeued thread).enqueued x = if x = thread then false else q.enqueued x := by
  simp only [RunQueue.enqueued, RunQueue.markDequeued, RunQueue.modify, Function.update_apply]
  split <;> rfl

@[simp] theorem setEnd_enqueued : (q.setEnd v).enqueued x = q.enqueued x := rfl
@[simp] theorem setEnd_next : (q.setEnd v).next x = q.next x := rfl
@[simp] theorem setEnd_prev : (q.setEnd v).prev x = q.prev x := rfl
@[simp] theorem setNext_queueStart : (q.setNext thread v).queueStart = q.queueStart := rfl
@[simp] theorem setNext_queueEnd : (q.setNext thread v).queueEnd = q.queueEnd := rfl
@[simp] theorem setPrev_queueStart : (q.setPrev thread v).queueStart = q.queueStart := rfl
@[simp] theorem setPrev_queueEnd : (q.setPrev thread v).queueEnd = q.queueEnd := rfl
@[simp] theorem setEnd_queueStart : (q.setEnd v).queueStart = q.queueStart := rfl

theorem linkAtEnd_next : (linkAtEnd q thread).next x =
    if x = thread then q.queueStart else if x = q.queueEnd then thread else q.next x := by
  simp [linkAtEnd]

theorem linkAtEnd_prev : (linkAtEnd q thread).prev x =
    if x = q.queueStart then thread else if x = thread then q.queueEnd else q.prev x := by
  simp [linkAtEnd]

theorem linkAtEnd_enqueued : (linkAtEnd q thread).enqueued x =
    if x = thread then true else q.enqueued x := by
  simp [linkAtEnd]

@[simp] theorem linkAtEnd_queueStart : (linkAtEnd q thread).queueStart = q.queueStart := rfl
@[simp] theorem linkAtEnd_queueEnd : (linkAtEnd q thread).queueEnd = thread := rfl

@[simp] theorem unlink_queueStart : (unlink q thread).queueStart = q.queueStart := rfl
@[simp] theorem unlink_queueEnd : (unlink q thread).queueEnd = q.queueEnd := rfl

theorem unlink_next : (unlink q thread).next x =
    if x = q.prev thread then q.next thread else q.next x := by
  simp [unlink]

theorem unlink_prev : (unlink q thread).prev x =
    if x = q.next thread then q.prev thread else q.prev x := by
  simp [unlink]

theorem unlink_enqueued : (unlink q thread).enqueued x =
    if x = thread then false else q.enqueued x := by
  simp [unlink]

variable {q thread} {back : Nat → Prop} {xs : List Nat}

/-- Behind the last node of a ring the new thread closes it. -/
theorem linkAtEnd_ring (hr : Ring q.next q.prev back q.queueStart xs)
    (hlast : ∃ A, q.queueStart :: xs = A ++ [q.queueEnd]) (hnot : thread ∉ q.queueStart :: xs) :
    Ring (linkAtEnd q thread).next (linkAtEnd q thread).prev back q.queueStart
      (xs ++ [thread]) := by
  obtain ⟨A, hA⟩ := hlast
  have hend : q.queueEnd ∈ q.queueStart :: xs := by rw [hA]; simp
  have hne : q.queueStart ≠ thread := fun h => hnot (by simp [h])
  refine Ring.insert (V := []) (q := q.queueStart) (B := []) (by simpa using hr)
    (by simpa using hnot) hA rfl ?_ ?_ ?_ ?_ ?_ ?_
  · rw [linkAtEnd_next, if_neg (fun h => hnot (by rw [← h]; exact hend)), if_pos rfl]
  · rw [linkAtEnd_prev, if_neg hne.symm, if_pos rfl]
  · rw [linkAtEnd_next, if_pos rfl]
  · intro _
    rw [linkAtEnd_prev, if_pos rfl]
  · intro x hx hxe
    rw [linkAtEnd_next, if_neg (fun h => hnot (by simpa [h] using hx)), if_neg hxe]
  · intro x hx hxs _
    rw [linkAtEnd_prev, if_neg hxs, if_neg (fun h => hnot (by simpa [h] using hx))]

/-- Taking a thread out of a ring closes it over the gap. -/
theorem unlink_ring {U V : List Nat} (hr : Ring q.next q.prev back q.queueStart (U ++ thread :: V))
    (hb : back thread) :
    Ring (unlink q thread).next (unlink q thread).prev back q.queueStart (U ++ V) := by
  obtain ⟨A, p, hp⟩ := exists_last q.queueStart U
  obtain ⟨y, B, hy⟩ := exists_first q.queueStart V
  obtain ⟨hpn, hnp, hny, hyn⟩ := hr.neighbours hp hy hb
  refine hr.remove hp hy ?_ ?_ ?_ ?_
  · rw [unlink_next, if_pos hnp.symm, hny]
  · intro _
    rw [unlink_prev, if_pos hny.symm, hnp]
  · intro x _ hx
    rw [unlink_next, if_neg (by rw [hnp]; exact hx)]
  · intro x _ hx _
    rw [unlink_prev, if_neg (by rw [hny]; exact hx)]

end Links

/-! ### Integrity of the queue -/

/-- While some thread is enqueued: from every enqueued thread the walk along
`next` visits exactly the enqueued threads, each other one before it comes
back; the two links are inverse there; and both ends are enqueued. -/
structure Integrity (q : RunQueue) : Prop where
  visits : ∀ t, q.enqueued t → ∀ u, q.enqueued u ↔ ∃ k, q.next^[k] t = u
  returns : ∀ t, q.enqueued t → ∃ k, 0 < k ∧ q.next^[k] t = t
  found : ∀ t u, q.enqueued t → q.enqueued u → t ≠ u →
    ∃ k, 0 < k ∧ q.next^[k] t = u ∧ ∀ j, 0 < j → j < k → q.next^[j] t ≠ t
  inverse : ∀ t, q.enqueued t → q.prev (q.next t) = t ∧ q.next (q.prev t) = t
  ends : (∃ t, q.enqueued t) → q.enqueued q.queueStart ∧ q.enqueued q.queueEnd

/-- The queue as a ring from `queue.start` that closes behind `queue.end`. -/
structure Holds (q : RunQueue) (xs : List Nat) : Prop where
  ring : Ring q.next q.prev (fun _ => True) q.queueStart xs
  last : ∃ A, q.queueStart :: xs = A ++ [q.queueEnd]
  members : ∀ t, q.enqueued t ↔ t ∈ q.queueStart :: xs
  nonnull : 0 ∉ q.queueStart :: xs

/-- A queue that holds no thread: never used, or left behind by the removal of
its only member, to which both ends still point. -/
structure Drained (q : RunQueue) : Prop where
  empty : ∀ t, q.enqueued t = false
  ends : q.queueStart = q.queueEnd

def QueueInv (q : RunQueue) : Prop := Drained q ∨ ∃ xs, Holds q xs

theorem Drained.integrity {q : RunQueue} (hd : Drained q) : Integrity q := by
  have hno : ∀ t, ¬ q.enqueued t := fun t => by simp [hd.empty t]
  exact ⟨fun t ht => absurd ht (hno t), fun t ht => absurd ht (hno t),
    fun t _ ht => absurd ht (hno t), fun t ht => absurd ht (hno t),
    fun ⟨t, ht⟩ => absurd ht (hno t)⟩

theorem Holds.end_mem {q : RunQueue} {xs : List Nat} (hq : Holds q xs) :
    q.queueEnd ∈ q.queueStart :: xs := by
  obtain ⟨A, hA⟩ := hq.last
  rw [hA]
  simp

theorem Holds.ends_ne_zero {q : RunQueue} {xs : List Nat} (hq : Holds q xs) :
    q.queueStart ≠ 0 ∧ q.queueEnd ≠ 0 :=
  ⟨fun h => hq.nonnull (by rw [← h]; simp), fun h => hq.nonnull (by rw [← h]; exact hq.end_mem)⟩

theorem Holds.inverse {q : RunQueue} {xs : List Nat} (hq : Holds q xs) {t : Nat}
    (ht : t ∈ q.queueStart :: xs) : q.prev (q.next t) = t ∧ q.next (q.prev t) = t := by
  -- Both neighbours are read off the split of the member list at `t`.
  rcases List.mem_cons.mp ht with rfl | hin
  · obtain ⟨A, hA⟩ := hq.last
    obtain ⟨y, B, hB⟩ := exists_first q.queueStart xs
    have hout := hq.ring.link (A := []) (x := q.queueStart) (y := y) (B := B) (by rw [List.cons_append, hB]; rfl)
    have hback := hq.ring.link (A := A) (x := q.queueEnd) (y := q.queueStart) (B := [])
      (by rw [hA]; simp)
    rw [hout.1, hout.2 trivial, hback.2 trivial, hback.1]
    exact ⟨rfl, rfl⟩
  · obtain ⟨us, vs, rfl⟩ := List.append_of_mem hin
    obtain ⟨A, p, hp⟩ := exists_last q.queueStart us
    obtain ⟨y, B, hy⟩ := exists_first q.queueStart vs
    obtain ⟨hpn, hnp, hny, hyn⟩ := hq.ring.neighbours hp hy trivial
    rw [hny, hyn trivial, hnp, hpn]
    exact ⟨rfl, rfl⟩

theorem Holds.integrity {q : RunQueue} {xs : List Nat} (hq : Holds q xs) : Integrity q where
  visits t ht u := (hq.members u).trans (hq.ring.mem_iff_iterate ((hq.members t).mp ht))
  returns t ht := ⟨_, by simp, hq.ring.iterate_length ((hq.members t).mp ht)⟩
  found t u ht hu hne :=
    hq.ring.exists_visit ((hq.members t).mp ht) ((hq.members u).mp hu) hne
  inverse t ht := hq.inverse ((hq.members t).mp ht)
  ends _ := ⟨(hq.members _).mpr (by simp), (hq.members _).mpr hq.end_mem⟩

/-- A queue whose two ends are the given thread, linked to itself, holds it alone. -/
theorem holds_singleton {q : RunQueue} {t : Nat} (ht : t ≠ 0) (hs : q.queueStart = t)
    (he : q.queueEnd = t) (hn : q.next t = t) (hp : q.prev t = t)
    (hm : ∀ x, q.enqueued x ↔ x = t) : Holds q [] := by
  refine ⟨⟨by simp, ?_⟩, ⟨[], by simp [hs, he]⟩, fun x => by simp [hm, hs], by simp [hs, ht.symm]⟩
  rw [hs]
  simp [Link, hn, hp]

theorem enqueue_eq {q : RunQueue} {t : Nat} (ht : q.enqueued t = false) :
    schedEnqueueThread q t = linkAtEnd (openQueue q t) t := by
  simp [schedEnqueueThread, ht]

theorem openQueue_eq {q : RunQueue} (t : Nat) (hs : q.queueStart ≠ 0) (he : q.queueEnd ≠ 0) :
    openQueue q t = q := by
  simp [openQueue, hs, he]

/-- Appending to a queue that holds threads extends the ring behind its end. -/
theorem Holds.enqueue {q : RunQueue} {xs : List Nat} (hq : Holds q xs) {t : Nat} (hz : t ≠ 0)
    (ht : q.enqueued t = false) : Holds (schedEnqueueThread q t) (xs ++ [t]) := by
  have hnot : t ∉ q.queueStart :: xs := fun h => by simp [(hq.members t).mpr h] at ht
  rw [enqueue_eq ht, openQueue_eq t hq.ends_ne_zero.1 hq.ends_ne_zero.2]
  refine ⟨?_, ?_, ?_, ?_⟩
  · exact linkAtEnd_ring hq.ring hq.last hnot
  · exact ⟨q.queueStart :: xs, by rw [linkAtEnd_queueStart, linkAtEnd_queueEnd]; simp⟩
  · intro x
    rw [linkAtEnd_enqueued, linkAtEnd_queueStart]
    by_cases hx : x = t
    · simp [hx]
    · simp only [if_neg hx, hq.members x, List.mem_cons, List.mem_append, List.not_mem_nil]
      tauto
  · have hn := hq.nonnull
    rw [linkAtEnd_queueStart]
    simp only [List.mem_cons, List.mem_append, List.not_mem_nil, or_false, not_or] at hn ⊢
    exact ⟨hn.1, hn.2, hz.symm⟩

/-- Removing a thread that is neither end closes the ring over it. -/
theorem Holds.dequeue {q : RunQueue} {us vs : List Nat} {t : Nat} (hq : Holds q (us ++ t :: vs))
    (he : t ≠ q.queueEnd) : Holds (unlink q t) (us ++ vs) := by
  have hperm := perm_insert q.queueStart t us vs
  have hnot : t ∉ q.queueStart :: (us ++ vs) :=
    (List.nodup_cons.mp (hperm.nodup_iff.mp hq.ring.nodup)).1
  refine ⟨?_, ?_, ?_, ?_⟩
  · exact unlink_ring hq.ring trivial
  · exact last_remove hq.last he
  · intro x
    rw [unlink_enqueued]
    by_cases hx : x = t
    · rw [if_pos hx, hx, unlink_queueStart]
      simpa using hnot
    · rw [if_neg hx, hq.members x, hperm.mem_iff, List.mem_cons]
      exact or_iff_right hx
  · intro hz
    exact hq.nonnull (hperm.mem_iff.mpr (List.mem_cons_of_mem t hz))

/-! ### Runs -/

inductive QueueOp where
  | enqueue (thread : Nat)
  | dequeue (thread : Nat)
  deriving DecidableEq, Repr

def queueStep (q : RunQueue) : QueueOp → RunQueue
  | .enqueue t => schedEnqueueThread q t
  | .dequeue t => dequeueThread q t

/-- Inserted threads are not enqueued, removed threads are. -/
def QueueOp.Allowed (q : RunQueue) : QueueOp → Prop
  | .enqueue t => t ≠ 0 ∧ q.enqueued t = false
  | .dequeue t => q.enqueued t = true

/-- The operation meets the ends where `dequeue_thread` left them: it removes an
inner thread or the only one, and it refills a drained queue with the thread
that was removed last. -/
def QueueOp.MeetsEnds (q : RunQueue) : QueueOp → Prop
  | .enqueue t => q.queueStart = 0 ∨ q.enqueued q.queueStart = true ∨ t = q.queueStart
  | .dequeue t => (t ≠ q.queueStart ∧ t ≠ q.queueEnd) ∨ q.next t = t

def EmptyQueue (q : RunQueue) : Prop :=
  q.queueStart = 0 ∧ q.queueEnd = 0 ∧ ∀ t, q.enqueued t = false

theorem QueueInv.integrity {q : RunQueue} (h : QueueInv q) : Integrity q := by
  rcases h with hd | ⟨xs, hq⟩
  · exact hd.integrity
  · exact hq.integrity

theorem Drained.enqueue {q : RunQueue} (hd : Drained q) {t : Nat} (hz : t ≠ 0)
    (hends : q.queueStart = 0 ∨ t = q.queueStart) : Holds (schedEnqueueThread q t) [] := by
  have hopen : (openQueue q t).queueStart = t ∧ (openQueue q t).queueEnd = t := by
    rcases hends with h0 | hts
    · simp [openQueue, h0]
    · rw [openQueue_eq t (by rw [← hts]; exact hz) (by rw [← hd.ends, ← hts]; exact hz)]
      exact ⟨hts.symm, hd.ends.symm.trans hts.symm⟩
  have henq : ∀ x, (openQueue q t).enqueued x = false := by
    intro x
    simp only [openQueue]
    split <;> exact hd.empty x
  rw [enqueue_eq (hd.empty t)]
  refine holds_singleton hz ?_ ?_ ?_ ?_ ?_
  · exact hopen.1
  · exact linkAtEnd_queueEnd _ _
  · rw [linkAtEnd_next, if_pos rfl, hopen.1]
  · rw [linkAtEnd_prev, if_pos hopen.1.symm]
  · intro x
    rw [linkAtEnd_enqueued, henq]
    simp

theorem queueStep_keeps (q : RunQueue) (op : QueueOp) (hq : QueueInv q) (hv : op.Allowed q)
    (hc : op.MeetsEnds q) : QueueInv (queueStep q op) := by
  cases op with
  | enqueue t =>
      rcases hq with hd | ⟨xs, hh⟩
      · refine .inr ⟨[], hd.enqueue hv.1 ?_⟩
        rcases hc with h0 | hs | ht
        · exact .inl h0
        · rw [hd.empty] at hs
          cases hs
        · exact .inr ht
      · exact .inr ⟨xs ++ [t], hh.enqueue hv.1 hv.2⟩
  | dequeue t =>
      have hdeq : queueStep q (.dequeue t) = unlink q t := if_pos hv
      rcases hq with hd | ⟨xs, hh⟩
      · rw [QueueOp.Allowed, hd.empty] at hv
        cases hv
      · have hm := (hh.members t).mp hv
        rw [hdeq]
        rcases hc with ⟨hs, he⟩ | hfix
        · obtain ⟨us, vs, rfl⟩ := List.append_of_mem ((List.mem_cons.mp hm).resolve_left hs)
          exact .inr ⟨us ++ vs, hh.dequeue he⟩
        · obtain ⟨rfl, rfl⟩ := hh.ring.eq_nil_of_fixed hm hfix
          refine .inl ⟨?_, ?_⟩
          · intro x
            rw [unlink_enqueued]
            split
            · rfl
            · rename_i hx
              exact Bool.eq_false_iff.mpr (fun h => hx (by simpa using (hh.members x).mp h))
          · exact (List.mem_singleton.mp hh.end_mem).symm

/-- An operation that misses the ends leaves one of them outside the queue. -/
theorem queueStep_breaks (q : RunQueue) (op : QueueOp) (hq : QueueInv q) (hv : op.Allowed q)
    (hi : Integrity (queueStep q op)) : op.MeetsEnds q := by
  cases op with
  | enqueue t =>
      by_contra hc
      simp only [QueueOp.MeetsEnds, not_or] at hc
      obtain ⟨h0, hs, ht⟩ := hc
      rcases hq with hd | ⟨xs, hh⟩
      · have hstep : queueStep q (.enqueue t) = linkAtEnd q t := by
          rw [queueStep, enqueue_eq hv.2, openQueue_eq t h0 (by rw [← hd.ends]; exact h0)]
        rw [hstep] at hi
        have hends := hi.ends ⟨t, by rw [linkAtEnd_enqueued, if_pos rfl]⟩
        rw [linkAtEnd_queueStart, linkAtEnd_enqueued, if_neg (Ne.symm ht), hd.empty] at hends
        cases hends.1
      · exact hs ((hh.members _).mpr (by simp))
  | dequeue t =>
      by_contra hc
      simp only [QueueOp.MeetsEnds, not_or, not_and_or, not_not] at hc
      obtain ⟨hend, hmove⟩ := hc
      have hstep : queueStep q (.dequeue t) = unlink q t := if_pos hv
      rw [hstep] at hi
      -- The successor of `t` is still enqueued, so the ends have to be.
      have hnext : q.enqueued (q.next t) = true := by
        rw [(QueueInv.integrity hq).visits t hv]
        exact ⟨1, rfl⟩
      have hends := hi.ends ⟨q.next t, by rw [unlink_enqueued, if_neg hmove, hnext]⟩
      rw [unlink_queueStart, unlink_queueEnd, unlink_enqueued, unlink_enqueued] at hends
      rcases hend with hs | he
      · rw [if_pos hs.symm] at hends
        cases hends.1
      · rw [if_pos he.symm] at hends
        cases hends.2

/-- From an empty queue, the queue keeps its integrity along a run exactly when
every operation meets the ends. -/
theorem queue_integrity_iff_meetsEnds (q : RunQueue) (hq : EmptyQueue q) (ops : List QueueOp)
    (hv : AllSteps queueStep (fun q op => op.Allowed q) q ops) :
    AllStates queueStep Integrity q ops ↔ AllSteps queueStep (fun q op => op.MeetsEnds q) q ops :=
  allStates_iff_allSteps (fun _ h => QueueInv.integrity h) queueStep_keeps queueStep_breaks
    (.inl ⟨hq.2.2, hq.1.trans hq.2.1.symm⟩) hv

def noThreads : RunQueue := ⟨fun _ => {}, 0, 0⟩

/-- Three threads are inserted and the middle one leaves. -/
theorem inner_removal_keeps_integrity :
    AllStates queueStep Integrity noThreads [.enqueue 1, .enqueue 2, .enqueue 3, .dequeue 2] :=
  (queue_integrity_iff_meetsEnds noThreads ⟨rfl, rfl, fun _ => rfl⟩ _
    (by simp only [AllSteps, QueueOp.Allowed]; decide)).mpr
    (by simp only [AllSteps, QueueOp.MeetsEnds]; decide)

/-- Removing the last thread leaves `queue.end` on it; the thread inserted next
hangs off the removed one and is lost to a walk from the thread that stayed. -/
theorem removed_end_loses_next_thread :
    AllSteps queueStep (fun q op => op.Allowed q) noThreads
      [.enqueue 1, .enqueue 2, .dequeue 2, .enqueue 3] ∧
    ¬ AllStates queueStep Integrity noThreads [.enqueue 1, .enqueue 2, .dequeue 2, .enqueue 3] := by
  refine ⟨by simp only [AllSteps, QueueOp.Allowed]; decide, ?_⟩
  simp only [AllStates]
  rintro ⟨_, _, _, _, hi⟩
  obtain ⟨k, hk⟩ := (hi.visits 1 (by decide) 3).mp (by decide)
  rw [Function.iterate_fixed (by decide)] at hk
  exact absurd hk (by decide)

end Flan.Proc
