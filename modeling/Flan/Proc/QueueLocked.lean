import Mathlib.Tactic.IntervalCases
import Flan.Lib.Code
import Flan.Lib.OneCall
import Flan.Lib.Walk
import Flan.Sys.Spinlock

/-! `sched_enqueue_thread` as several CPUs call it, statement by statement under `queue.lock`, while
other CPUs follow the links in `get_next_thread`, which does not take the lock. -/
namespace Flan.Proc
open Flan.Lib Flan.Sys

/-! ### The source -/

/-- The links of the threads and the two ends of `queue`. -/
structure Links where
  next : Nat → Nat
  prev : Nat → Nat
  queueStart : Nat
  queueEnd : Nat

/-- The statements of `sched_enqueue_thread` between the lock and its release. -/
inductive LinkOp where
  | openQueue (thread : Nat)
  | setPrev (thread : Nat)
  | linkEnd (thread : Nat)
  | setEnd (thread : Nat)
  | setNext (thread : Nat)
  | linkStart (thread : Nat)

def LinkOp.exec (l : Links) : LinkOp → Links × List LinkOp
  | .openQueue t =>
      (if l.queueStart = 0 ∨ l.queueEnd = 0 then { l with queueStart := t, queueEnd := t } else l, [])
  | .setPrev t => ({ l with prev := Function.update l.prev t l.queueEnd }, [])
  | .linkEnd t => ({ l with next := Function.update l.next l.queueEnd t }, [])
  | .setEnd t => ({ l with queueEnd := t }, [])
  | .setNext t => ({ l with next := Function.update l.next t l.queueStart }, [])
  | .linkStart t => ({ l with prev := Function.update l.prev l.queueStart t }, [])

def enqueueOps (t : Nat) : List LinkOp :=
  [.openQueue t, .setPrev t, .linkEnd t, .setEnd t, .setNext t, .linkStart t]

def enqueueBody : Critical Links Nat (List LinkOp) Unit := codeBody LinkOp.exec enqueueOps

/-- All of the statements at once. -/
def Links.link (l : Links) (t : Nat) : Links := (enqueueOps t).foldl (fun l op => (op.exec l).1) l

/-- The links as `kheap_calloc` leaves them, and the empty queue. -/
def Links.empty : Links := ⟨fun _ => 0, fun _ => 0, 0, 0⟩

/-! ### The run queue with these links -/

/-- The queue whose threads have the links, and otherwise the records `rest`. -/
def Links.queue (l : Links) (rest : Nat → Thread) : RunQueue where
  threads x := { rest x with next := l.next x, prev := l.prev x }
  queueStart := l.queueStart
  queueEnd := l.queueEnd

/-- A record is changed as the links and the rest of it say. -/
theorem queue_modify {l l' : Links} {rest rest' : Nat → Thread} {t : Nat} {f : Thread → Thread}
    (hends : l'.queueStart = l.queueStart ∧ l'.queueEnd = l.queueEnd)
    (hself : f ((l.queue rest).threads t) = (l'.queue rest').threads t)
    (hother : ∀ x, x ≠ t → (l'.queue rest').threads x = (l.queue rest).threads x) :
    (l.queue rest).modify t f = l'.queue rest' := by
  simp only [RunQueue.modify, Links.queue, RunQueue.mk.injEq, hends, and_true]
  funext x
  by_cases hx : x = t
  · subst hx
    rw [Function.update_self]
    exact hself
  · rw [Function.update_of_ne hx]
    exact (hother x hx).symm

section Refine
variable (l : Links) (rest : Nat → Thread) (t v : Nat)

theorem queue_setNext : (l.queue rest).setNext t v = { l with next := Function.update l.next t v }.queue rest :=
  queue_modify ⟨rfl, rfl⟩ (by simp [Links.queue]) fun x hx => by simp [Links.queue, hx]

theorem queue_setPrev : (l.queue rest).setPrev t v = { l with prev := Function.update l.prev t v }.queue rest :=
  queue_modify ⟨rfl, rfl⟩ (by simp [Links.queue]) fun x hx => by simp [Links.queue, hx]

theorem queue_markEnqueued : (l.queue rest).markEnqueued t =
    l.queue (Function.update rest t { rest t with enqueued := true }) :=
  queue_modify ⟨rfl, rfl⟩ (by simp [Links.queue]) fun x hx => by simp [Links.queue, hx]

theorem queue_openQueue : openQueue (l.queue rest) t = (LinkOp.exec l (.openQueue t)).1.queue rest := by
  by_cases h : l.queueStart = 0 ∨ l.queueEnd = 0
  · have h' : (l.queue rest).queueStart = 0 ∨ (l.queue rest).queueEnd = 0 := h
    rw [openQueue, if_pos h', LinkOp.exec, if_pos h]
    rfl
  · have h' : ¬ ((l.queue rest).queueStart = 0 ∨ (l.queue rest).queueEnd = 0) := h
    rw [openQueue, if_neg h', LinkOp.exec, if_neg h]

theorem queue_setEnd : (l.queue rest).setEnd v = { l with queueEnd := v }.queue rest := rfl

/-- The statements under the lock and the mark behind it are what the sequential model does. -/
theorem queue_link : linkAtEnd (openQueue (l.queue rest) t) t =
    (l.link t).queue (Function.update rest t { rest t with enqueued := true }) := by
  rw [queue_openQueue]
  simp only [linkAtEnd, queue_setPrev, queue_setNext, queue_setEnd, queue_markEnqueued]
  rfl

end Refine

/-! ### The ring of the threads that are linked -/

/-- The threads of the list are linked to a ring in this order, and all others have no links. -/
structure Linked (l : Links) (order : List Nat) : Prop where
  ring : ∀ h xs, order = h :: xs → l.queueStart = h ∧ Ring l.next l.prev (fun _ => True) h xs ∧
    ∃ A, h :: xs = A ++ [l.queueEnd]
  none : order = [] → l.queueStart = 0 ∧ l.queueEnd = 0
  fresh : ∀ x, x ∉ order → l.next x = 0 ∧ l.prev x = 0
  nonnull : 0 ∉ order

theorem linked_empty : Linked .empty [] :=
  ⟨fun _ _ h => (by cases h), fun _ => ⟨rfl, rfl⟩, fun _ _ => ⟨rfl, rfl⟩, List.not_mem_nil⟩

section Linked
variable {l : Links} {order : List Nat} {t : Nat}

theorem Linked.nodup (h : Linked l order) : order.Nodup := by
  cases order with
  | nil => exact List.nodup_nil
  | cons x xs => exact (h.ring x xs rfl).2.1.nodup

theorem Linked.ends_ne_zero (h : Linked l order) (hne : order ≠ []) : l.queueStart ≠ 0 ∧ l.queueEnd ≠ 0 := by
  obtain ⟨x, xs, rfl⟩ := List.exists_cons_of_ne_nil hne
  obtain ⟨hstart, -, A, hA⟩ := h.ring x xs rfl
  refine ⟨?_, ?_⟩
  · rintro hz
    exact h.nonnull (by rw [← hz, hstart]; exact List.mem_cons_self)
  · rintro hz
    exact h.nonnull (by rw [hA, ← hz]; simp)

theorem link_eq (hs : l.queueStart ≠ 0) (he : l.queueEnd ≠ 0) : l.link t =
    ⟨Function.update (Function.update l.next l.queueEnd t) t l.queueStart,
      Function.update (Function.update l.prev t l.queueEnd) l.queueStart t, l.queueStart, t⟩ := by
  simp only [Links.link, enqueueOps, List.foldl_cons, List.foldl_nil, LinkOp.exec, hs, he, or_self, if_false]

theorem link_none (hs : l.queueStart = 0) : l.link t =
    ⟨Function.update (Function.update l.next t t) t t, Function.update (Function.update l.prev t t) t t, t, t⟩ := by
  simp only [Links.link, enqueueOps, List.foldl_cons, List.foldl_nil, LinkOp.exec, hs, true_or, if_true]

/-- The first thread of the queue is alone on its ring, and each later one goes behind the end. -/
theorem Linked.link (h : Linked l order) (ht : t ∉ order) (hz : t ≠ 0) : Linked (l.link t) (order ++ [t]) := by
  have hnonnull : 0 ∉ order ++ [t] := by
    simp only [List.mem_append, List.mem_singleton, not_or]
    exact ⟨h.nonnull, hz.symm⟩
  cases order with
  | nil =>
      rw [link_none (h.none rfl).1]
      refine ⟨?_, fun hnil => (by cases hnil), fun x hx => ?_, hnonnull⟩
      · rintro x xs heq
        obtain ⟨rfl, rfl⟩ := List.cons.inj heq
        refine ⟨rfl, ⟨List.nodup_singleton _, ?_⟩, [], rfl⟩
        simp [Link]
      · have hxt : x ≠ t := fun hx' => hx (by simp [hx'])
        simp only [Function.update_of_ne hxt]
        exact h.fresh x List.not_mem_nil
  | cons y ys =>
      obtain ⟨hstart, hring, A, hA⟩ := h.ring y ys rfl
      obtain ⟨hs, he⟩ := h.ends_ne_zero (List.cons_ne_nil y ys)
      have hlink := @linkAtEnd_ring (l.queue fun _ => {}) t (fun _ => True) ys
        (by rw [← hstart] at hring; exact hring) ⟨A, by rw [← hstart] at hA; exact hA⟩
        (by rw [← hstart] at ht; exact ht)
      have hopen : openQueue (l.queue fun _ => {}) t = l.queue fun _ => {} := openQueue_eq t hs he
      have hqueue := queue_link l (fun _ => {}) t
      rw [hopen] at hqueue
      rw [hqueue] at hlink
      refine ⟨?_, fun hnil => (by cases hnil), fun x hx => ?_, hnonnull⟩
      · rintro x xs heq
        obtain ⟨rfl, rfl⟩ := List.cons.inj heq
        refine ⟨by rw [link_eq hs he]; exact hstart, ?_, y :: ys, by rw [link_eq hs he]; rfl⟩
        rw [← hstart]
        exact hlink
      · have hmem : l.queueEnd ∈ y :: ys := by
          rw [hA]
          simp
        obtain ⟨hx, hxt⟩ : x ∉ y :: ys ∧ x ≠ t := by simpa [and_assoc] using hx
        have hxe : x ≠ l.queueEnd := fun heq => hx (heq ▸ hmem)
        have hxs : x ≠ l.queueStart := fun heq => hx (by rw [heq, hstart]; exact List.mem_cons_self)
        rw [link_eq hs he]
        simp only [Function.update_of_ne hxt, Function.update_of_ne hxe, Function.update_of_ne hxs]
        exact h.fresh x hx

end Linked

/-! ### Calls of several CPUs -/

/-- The calls, each for a thread of its own. -/
structure Enqueuers (ι : Type*) where
  thread : ι → Nat
  distinct : Function.Injective thread
  nonnull : ∀ i, thread i ≠ 0

/-- The queue while the calls are being made. -/
abbrev Enqueuing (ι : Type*) := Guard.Once ι Links Nat Nat (List LinkOp) Unit Nat

/-- The next statement of a call. -/
def enqueueStep {ι : Type*} [DecidableEq ι] (e : Enqueuers ι) : Enqueuing ι → ι → Enqueuing ι :=
  (spinlocked enqueueBody).onceStep e.thread

section Smp
variable {ι : Type*} {e : Enqueuers ι}

def enqueueStart : Enqueuing ι := (spinlocked enqueueBody).onceStart .empty

/-- The threads of the calls that have returned. -/
def enqueuedThreads (s : Enqueuing ι) : List Nat := s.locked.log.map fun c => c.2.1

def EnqueueInv (e : Enqueuers ι) (s : Enqueuing ι) : Prop :=
  (spinlocked enqueueBody).OnceInv e.thread (fun _ => True) (fun l t l' _ => l' = l.link t) .empty s

theorem exec_new (l : Links) (op : LinkOp) : (op.exec l).2 = [] := by
  cases op <;> rfl

theorem enqueueBody_computes : enqueueBody.Computes (fun _ => True) fun l t l' _ => l' = l.link t :=
  fun l t _ => ⟨_, (), (does_straight exec_new l (enqueueOps t)).returns _, trivial, rfl⟩

theorem enqueueInv_start : EnqueueInv e enqueueStart := Guard.onceInv_start trivial

theorem EnqueueInv.step [DecidableEq ι] {s : Enqueuing ι} (h : EnqueueInv e s) (i : ι) : EnqueueInv e (enqueueStep e s i) :=
  Guard.OnceInv.step enqueueBody_computes (spinlocked_again _) (fun _ => rfl) h i

/-- A call that goes on alone returns. -/
theorem EnqueueInv.alone [DecidableEq ι] {s : Enqueuing ι} {i : ι} (h : EnqueueInv e s) (hquiet : s.Quiet)
    (hdue : s.due i = .before) :
    ∃ m, ((enqueueStep e · i)^[m] s).due i = .after ∧ ((enqueueStep e · i)^[m] s).Quiet ∧
      ∀ k < m, ((enqueueStep e · i)^[k] s).due i ≠ .after :=
  Guard.OnceInv.alone_first enqueueBody_computes (fun _ => rfl) h hquiet hdue

/-- The calls that have returned have linked their threads in the order of their return. -/
theorem linked_of_replays {log : List (ι × Nat × Unit)} {l l' : Links} {order : List Nat} (h : Linked l order)
    (hlog : Replays (fun l t l' _ => l' = l.link t) l log l') (hnd : (order ++ log.map fun c => c.2.1).Nodup)
    (hz : 0 ∉ log.map fun c => c.2.1) : Linked l' (order ++ log.map fun c => c.2.1) := by
  induction log generalizing l order with
  | nil =>
      obtain rfl : l = l' := hlog
      rw [List.map_nil, List.append_nil]
      exact h
  | cons c log ih =>
      obtain ⟨u, rfl, hrest⟩ := hlog
      rw [List.map_cons, ← List.singleton_append, ← List.append_assoc] at hnd ⊢
      rw [List.map_cons, List.mem_cons, not_or] at hz
      have hnot : c.2.1 ∉ order := fun hmem =>
        (List.nodup_append.mp (List.nodup_append.mp hnd).1).2.2 _ hmem _ (List.mem_singleton_self _) rfl
      exact ih (h.link hnot (Ne.symm hz.1)) hrest hnd hz.2

theorem OneCall.threads {s : Enqueuing ι} (h : Guard.OneCall e.thread s.due s.locked) :
    enqueuedThreads s = (s.locked.log.map Prod.fst).map e.thread := by
  rw [enqueuedThreads, List.map_map]
  exact List.map_congr_left fun c hc => h.calls c hc

/-! ### The links as `get_next_thread` reads them -/

/-- The end of the queue once it has been opened for the thread. -/
def Links.opened (l : Links) (t : Nat) : Nat := if l.queueStart = 0 ∨ l.queueEnd = 0 then t else l.queueEnd

/-- What the statements done so far have made of `next`: the third one links the thread behind the
end, and the fifth one closes the ring behind it. -/
theorem next_done {l : Links} {t : Nat} {done ops : List LinkOp} (h : enqueueOps t = done ++ ops) :
    (¬ ops.length ≤ 3 ∧ (done.foldl (fun l op => (op.exec l).1) l).next = l.next) ∨
    (ops.length ≤ 3 ∧ (done.foldl (fun l op => (op.exec l).1) l).next = Function.update l.next (l.opened t) t) ∨
    (ops.length ≤ 3 ∧ (done.foldl (fun l op => (op.exec l).1) l).next = (l.link t).next) := by
  have hdone : done = (enqueueOps t).take done.length := by rw [h, List.take_left]
  have hops : ops = (enqueueOps t).drop done.length := by rw [h, List.drop_left]
  have hlen : done.length ≤ 6 := by
    have := congrArg List.length h
    rw [List.length_append] at this
    simp only [enqueueOps, List.length_cons, List.length_nil] at this
    omega
  have hopen : (LinkOp.exec l (.openQueue t)).1.next = l.next := by
    simp only [LinkOp.exec]
    split <;> rfl
  have hend : (LinkOp.exec l (.openQueue t)).1.queueEnd = l.opened t := by
    simp only [LinkOp.exec, Links.opened]
    split <;> rfl
  generalize done.length = m at hdone hops hlen
  subst hdone hops
  interval_cases m
  · exact .inl ⟨by simp [enqueueOps], rfl⟩
  · exact .inl ⟨by simp [enqueueOps], hopen⟩
  · exact .inl ⟨by simp [enqueueOps], hopen⟩
  · refine .inr (.inl ⟨by simp [enqueueOps], ?_⟩)
    rw [← hopen, ← hend]
    rfl
  · refine .inr (.inl ⟨by simp [enqueueOps], ?_⟩)
    rw [← hopen, ← hend]
    rfl
  · exact .inr (.inr ⟨by simp [enqueueOps], rfl⟩)
  · exact .inr (.inr ⟨by simp [enqueueOps], rfl⟩)

section Walk
variable {l : Links} {order : List Nat} {t : Nat}

theorem Linked.walk (h : Linked l order) : Walk l.next 0 order := by
  cases order with
  | nil => exact ⟨fun i hi => absurd hi (Nat.not_lt_zero _), fun hpos => absurd hpos (Nat.lt_irrefl 0)⟩
  | cons x xs => exact (h.ring x xs rfl).2.1.walk 0

/-- Between the two statements the walk along the ring ends at the new thread. -/
theorem Linked.walk_half (h : Linked l order) (ht : t ∉ order) :
    Walk (Function.update l.next (l.opened t) t) 0 (order ++ [t]) := by
  cases order with
  | nil =>
      have hopened : l.opened t = t := if_pos (.inl (h.none rfl).1)
      refine ⟨fun i hi => ?_, fun _ => .inl ?_⟩
      · simp at hi
      · simp [hopened]
  | cons x xs =>
      obtain ⟨hs, he⟩ := h.ends_ne_zero (List.cons_ne_nil x xs)
      obtain ⟨-, -, A, hA⟩ := h.ring x xs rfl
      have hopened : l.opened t = l.queueEnd := if_neg (not_or.mpr ⟨hs, he⟩)
      have hne : t ≠ l.queueEnd := by
        rintro rfl
        exact ht (by rw [hA]; simp)
      rw [hopened]
      refine h.walk.append hA h.nodup (Function.update_self ..) ?_ fun y _ hy => Function.update_of_ne hy ..
      rw [Function.update_of_ne hne]
      exact (h.fresh t ht).1

end Walk

/-- The call has linked its thread behind the others. -/
def LinkedIn : Phase Nat (List LinkOp) Unit Nat → Prop
  | .inside _ ops => ops.length ≤ 3
  | .leaving _ _ => True
  | _ => False

/-- The thread can be come to along `next`. -/
def OnWalk (e : Enqueuers ι) (s : Enqueuing ι) (x : Nat) : Prop :=
  x ∈ enqueuedThreads s ∨ ∃ i, e.thread i = x ∧ LinkedIn (s.locked.phase i)

theorem LinkedIn.holds {p : Phase Nat (List LinkOp) Unit Nat} (h : LinkedIn p) : p.Holds := by
  cases p <;> first | exact h | trivial

/-- The caller under the lock enqueues its own thread, which is not linked yet. -/
theorem own_thread {s : Enqueuing ι} (h : Guard.OneCall e.thread s.due s.locked) {i : ι}
    (hi : s.locked.phase i ≠ .idle) :
    (s.locked.phase i).Calls (· = e.thread i) ∧ e.thread i ∉ enqueuedThreads s := by
  have hfits := h.fits i
  cases hdue : s.due i with
  | before =>
      rw [hdue] at hfits
      exact absurd hfits.1 hi
  | after =>
      rw [hdue] at hfits
      exact absurd hfits.1 hi
  | during =>
      rw [hdue] at hfits
      refine ⟨hfits.2.1, ?_⟩
      rw [OneCall.threads h, List.mem_map_of_injective e.distinct]
      exact hfits.2.2

theorem threads_nodup {s : Enqueuing ι} (h : Guard.OneCall e.thread s.due s.locked) :
    (enqueuedThreads s).Nodup ∧ 0 ∉ enqueuedThreads s := by
  rw [OneCall.threads h]
  refine ⟨h.once.map e.distinct, fun hz => ?_⟩
  obtain ⟨i, -, hi⟩ := List.mem_map.mp hz
  exact e.nonnull i hi

/-- The threads on the walk when one call has the lock. -/
theorem onWalk_iff {s : Enqueuing ι} {i : ι} (hout : ∀ j, j ≠ i → ¬ (s.locked.phase j).Holds) (x : Nat) :
    OnWalk e s x ↔ x ∈ enqueuedThreads s ∨ e.thread i = x ∧ LinkedIn (s.locked.phase i) := by
  refine or_congr_right ⟨?_, fun h => ⟨i, h⟩⟩
  rintro ⟨j, hj, hin⟩
  obtain rfl : j = i := by_contra fun hne => hout j hne hin.holds
  exact ⟨hj, hin⟩

/-- In every state the threads that can be come to lie on one walk. -/
theorem EnqueueInv.walk {s : Enqueuing ι} (h : EnqueueInv e s) :
    ∃ xs, (∀ x, OnWalk e s x ↔ x ∈ xs) ∧ Walk s.locked.shared.next 0 xs ∧
      xs.length ≤ (enqueuedThreads s).length + 1 := by
  obtain ⟨hnd, hz⟩ := threads_nodup h.one
  have hlinked : ∀ {l : Links}, Replays (fun l t l' _ => l' = l.link t) .empty s.locked.log l →
      Linked l (enqueuedThreads s) := fun hlog => linked_of_replays linked_empty hlog hnd hz
  have hown := fun i => own_thread h.one (i := i)
  cases h.inv with
  | free hlog _ _ hout =>
      refine ⟨enqueuedThreads s, fun x => or_iff_left ?_, (hlinked hlog).walk, Nat.le_succ _⟩
      rintro ⟨j, -, hin⟩
      exact hout j hin.holds
  | @inside i c ops l u r fuel hlog _ _ _ hphase hsteps _ hout =>
      obtain ⟨hcalls, hnew⟩ := hown i (by rw [hphase]; exact fun heq => by cases heq)
      rw [hphase] at hcalls
      obtain rfl : c = e.thread i := hcalls
      obtain ⟨done, hdone, hshared⟩ := steps_straight exec_new hsteps
      have hiff := onWalk_iff (e := e) hout
      rw [hphase] at hiff
      have hin : ∀ x, ops.length ≤ 3 → (OnWalk e s x ↔ x ∈ enqueuedThreads s ++ [e.thread i]) := by
        intro x hle
        rw [hiff, List.mem_append, List.mem_singleton, eq_comm]
        exact or_congr_right (and_iff_left hle)
      rw [hshared]
      rcases next_done (l := l) hdone with ⟨hlong, hnext⟩ | ⟨hle, hnext⟩ | ⟨hle, hnext⟩
      · rw [hnext]
        refine ⟨enqueuedThreads s, fun x => ?_, (hlinked hlog).walk, Nat.le_succ _⟩
        rw [hiff]
        exact or_iff_left fun hlow => hlong hlow.2
      · rw [hnext]
        exact ⟨_, fun x => hin x hle, (hlinked hlog).walk_half hnew, by simp⟩
      · rw [hnext]
        exact ⟨_, fun x => hin x hle, ((hlinked hlog).link hnew (e.nonnull i)).walk, by simp⟩
  | @leaving i c l r hlog hR _ _ hphase hout =>
      obtain ⟨hcalls, hnew⟩ := hown i (by rw [hphase]; exact fun heq => by cases heq)
      rw [hphase] at hcalls
      obtain rfl : c = e.thread i := hcalls
      refine ⟨enqueuedThreads s ++ [e.thread i], fun x => ?_, ?_, by simp⟩
      · rw [onWalk_iff hout, hphase, List.mem_append, List.mem_singleton, eq_comm]
        exact or_congr_right (and_iff_left trivial)
      · rw [hR]
        exact ((hlinked hlog).link hnew (e.nonnull i)).walk

variable [DecidableEq ι]

theorem enqueued_grows (s : Enqueuing ι) (i : ι) : enqueuedThreads s <+: enqueuedThreads (enqueueStep e s i) := by
  refine List.IsPrefix.map _ ?_
  unfold enqueueStep Guard.onceStep
  split
  · exact Guard.log_grows _
  · exact Guard.log_grows _
  · exact List.prefix_rfl

/-- A thread that can be come to stays so. -/
theorem OnWalk.step {s : Enqueuing ι} {x : Nat} (hinv : EnqueueInv e s) (h : OnWalk e s x) (i : ι) :
    OnWalk e (enqueueStep e s i) x := by
  rcases h with hmem | ⟨j, rfl, hin⟩
  · exact .inl ((enqueued_grows s i).subset hmem)
  · have hidle : s.locked.phase j ≠ .idle := by
      intro hidle
      rw [hidle] at hin
      exact hin
    obtain ⟨hcalls, -⟩ := own_thread hinv.one hidle
    have hfits := hinv.one.fits j
    by_cases hji : j = i
    · subst hji
      cases hdue : s.due j with
      | before =>
          rw [hdue] at hfits
          exact absurd hfits.1 hidle
      | after =>
          rw [hdue] at hfits
          exact absurd hfits.1 hidle
      | during =>
          simp only [OnWalk, enqueuedThreads, enqueueStep, Guard.onceStep, hdue]
          cases hphase : s.locked.phase j with
          | idle => exact absurd hphase hidle
          | waiting c w =>
              rw [hphase] at hin
              exact hin.elim
          | gone c =>
              rw [hphase] at hin
              exact hin.elim
          | inside c ops =>
              rw [hphase] at hin
              refine .inr ⟨j, rfl, ?_⟩
              cases ops with
              | nil =>
                  simp only [Guard.next, hphase, spinlocked, enqueueBody, codeBody, Function.update_self]
                  trivial
              | cons op ops =>
                  simp only [Guard.next, hphase, spinlocked, enqueueBody, codeBody, Function.update_self, exec_new,
                    List.nil_append]
                  exact Nat.le_of_succ_le hin
          | leaving c r =>
              rw [hphase] at hcalls
              obtain rfl : c = e.thread j := hcalls
              refine .inl ?_
              simp only [Guard.next, hphase, List.map_append, List.map_singleton]
              exact List.mem_append_right _ (List.mem_singleton_self _)
    · have hsame : (enqueueStep e s i).locked.phase j = s.locked.phase j := by
        unfold enqueueStep Guard.onceStep
        split
        · exact Guard.next_phase_of_ne hji
        · exact Guard.next_phase_of_ne hji
        · rfl
      exact .inr ⟨j, rfl, by rw [hsame]; exact hin⟩

/-! ### Scans of several CPUs -/

/-- `get_next_thread` in its loop: the current thread and `next_thread`. -/
structure Scan where
  cur : Nat
  x : Nat

/-- The queue, the scans that are going on, and the threads that scans have returned. -/
structure Scanning (ι : Type*) (m : Nat) where
  queue : Enqueuing ι
  scans : Fin m → Option Scan
  found : List Nat

/-- A call of `sched_enqueue_thread` goes on; a CPU begins a scan behind its thread, which has been
enqueued; or it looks at `next_thread`, which is blocked, running or locked, or else is returned. -/
inductive ScanTurn (ι : Type*) (m : Nat) where
  | enqueue (i : ι)
  | start (r : Fin m) (cur : Nat)
  | look (r : Fin m) (busy : Bool)

variable {m : Nat}

def scanStep (e : Enqueuers ι) (s : Scanning ι m) : ScanTurn ι m → Scanning ι m
  | .enqueue i => { s with queue := enqueueStep e s.queue i }
  | .start r cur =>
      if cur ∈ enqueuedThreads s.queue then
        { s with scans := Function.update s.scans r (some ⟨cur, s.queue.locked.shared.next cur⟩) }
      else s
  | .look r busy =>
      match s.scans r with
      | none => s
      | some scan =>
          if scan.x = scan.cur ∨ scan.x = 0 then { s with scans := Function.update s.scans r none }
          else if busy then
            { s with scans := Function.update s.scans r (some { scan with x := s.queue.locked.shared.next scan.x }) }
          else { s with scans := Function.update s.scans r none, found := s.found ++ [scan.x] }

def scanRun (e : Enqueuers ι) (turns : List (ScanTurn ι m)) : Scanning ι m :=
  turns.foldl (scanStep e) ⟨enqueueStart, fun _ => none, []⟩

/-- The scan is at a thread that can be come to, or at the null pointer. -/
def Scan.Safe (e : Enqueuers ι) (q : Enqueuing ι) (scan : Scan) : Prop :=
  scan.cur ∈ enqueuedThreads q ∧ (scan.x = 0 ∨ OnWalk e q scan.x)

structure ScanInv (e : Enqueuers ι) (s : Scanning ι m) : Prop where
  queue : EnqueueInv e s.queue
  scans : ∀ r scan, s.scans r = some scan → scan.Safe e s.queue
  found : ∀ x ∈ s.found, OnWalk e s.queue x

omit [DecidableEq ι] in
theorem OnWalk.next {q : Enqueuing ι} {x : Nat} (hinv : EnqueueInv e q) (h : OnWalk e q x) :
    q.locked.shared.next x = 0 ∨ OnWalk e q (q.locked.shared.next x) := by
  obtain ⟨xs, hiff, hwalk, -⟩ := hinv.walk
  rw [hiff]
  exact (hwalk.next_mem ((hiff x).mp h)).symm

omit [DecidableEq ι] in
/-- A scan is replaced, and the others stay. -/
theorem scans_update {e : Enqueuers ι} {s : Scanning ι m} (h : ∀ r scan, s.scans r = some scan → scan.Safe e s.queue)
    (r : Fin m) {new : Option Scan} (hnew : ∀ scan, new = some scan → scan.Safe e s.queue) :
    ∀ r' scan, Function.update s.scans r new r' = some scan → scan.Safe e s.queue := by
  intro r' scan hscan
  by_cases hr : r' = r
  · rw [hr, Function.update_self] at hscan
    exact hnew scan hscan
  · rw [Function.update_of_ne hr] at hscan
    exact h r' scan hscan

theorem ScanInv.step {s : Scanning ι m} (h : ScanInv e s) (a : ScanTurn ι m) : ScanInv e (scanStep e s a) := by
  cases a with
  | enqueue i =>
      refine ⟨h.queue.step i, fun r scan hscan => ?_, fun x hx => (h.found x hx).step h.queue i⟩
      obtain ⟨hcur, hx⟩ := h.scans r scan hscan
      exact ⟨(enqueued_grows s.queue i).subset hcur, hx.imp_right fun hx => hx.step h.queue i⟩
  | start r cur =>
      rw [scanStep]
      split
      · rename_i hcur
        refine ⟨h.queue, scans_update h.scans r fun scan hscan => ?_, h.found⟩
        obtain rfl := Option.some.inj hscan
        exact ⟨hcur, OnWalk.next h.queue (.inl hcur)⟩
      · exact h
  | look r busy =>
      rw [scanStep]
      split
      · exact h
      · rename_i scan hscan
        obtain ⟨hcur, hx⟩ := h.scans r scan hscan
        have hstop : ∀ new, none = some new → Scan.Safe e s.queue new := fun new hnew => by cases hnew
        split
        · exact ⟨h.queue, scans_update h.scans r hstop, h.found⟩
        · rename_i hmore
          have hwalk : OnWalk e s.queue scan.x := hx.resolve_left fun hz => hmore (.inr hz)
          split
          · refine ⟨h.queue, scans_update h.scans r fun new hnew => ?_, h.found⟩
            obtain rfl := Option.some.inj hnew
            exact ⟨hcur, OnWalk.next h.queue hwalk⟩
          · refine ⟨h.queue, scans_update h.scans r hstop, fun x hx => ?_⟩
            rcases List.mem_append.mp hx with hx | hx
            · exact h.found x hx
            · rw [List.mem_singleton.mp hx]
              exact hwalk

theorem scanInv_run (e : Enqueuers ι) (turns : List (ScanTurn ι m)) : ScanInv e (scanRun e turns) := by
  have hrun : ∀ (turns : List (ScanTurn ι m)) s, ScanInv e s → ScanInv e (turns.foldl (scanStep e) s) := by
    intro turns
    induction turns with
    | nil => exact fun s h => h
    | cons a turns ih => exact fun s h => ih _ (h.step a)
  refine hrun turns _ ⟨enqueueInv_start, fun r scan hscan => ?_, fun x hx => ?_⟩
  · cases hscan
  · cases hx

/-- `get_next_thread` takes no lock, and still: in the midst of any calls of `sched_enqueue_thread` it
only comes to threads that these have linked, it returns no others, and wherever it is it needs at
most one look more than there are threads enqueued to come back to its thread or to a null pointer,
unless another thread is linked meanwhile. -/
theorem scan_without_lock_safe (e : Enqueuers ι) (turns : List (ScanTurn ι m)) :
    (∀ x ∈ (scanRun e turns).found, OnWalk e (scanRun e turns).queue x) ∧
    ∀ r scan, (scanRun e turns).scans r = some scan →
      (scan.x = 0 ∨ OnWalk e (scanRun e turns).queue scan.x) ∧
      ∃ k ≤ (enqueuedThreads (scanRun e turns).queue).length + 1,
        ((scanRun e turns).queue.locked.shared.next^[k] scan.x = scan.cur ∨
          (scanRun e turns).queue.locked.shared.next^[k] scan.x = 0) ∧
        ∀ j < k, OnWalk e (scanRun e turns).queue ((scanRun e turns).queue.locked.shared.next^[j] scan.x) := by
  have h := scanInv_run e turns
  refine ⟨h.found, fun r scan hscan => ?_⟩
  obtain ⟨hcur, hx⟩ := h.scans r scan hscan
  refine ⟨hx, ?_⟩
  rcases hx with hz | hx
  · exact ⟨0, Nat.zero_le _, .inr hz, fun j hj => absurd hj (Nat.not_lt_zero j)⟩
  · obtain ⟨xs, hiff, hwalk, hlen⟩ := h.queue.walk
    obtain ⟨k, hk, hend, hmem⟩ := hwalk.scan ((hiff _).mp hx) ((hiff _).mp (.inl hcur))
    exact ⟨k, hk.trans hlen, hend, fun j hj => (hiff _).mpr (hmem j hj)⟩

end Smp

end Flan.Proc
