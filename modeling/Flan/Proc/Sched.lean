import Flan.Proc.Queue

/-! The scheduler interrupt of `proc/sched.c` on any number of CPUs. Interrupts,
thread creation and thread death are atomic steps; every address is used for
one thread only. -/
namespace Flan.Proc
open Flan.Lib

/-- `struct interrupt_frame`, in the order the interrupt stub pushes it. -/
structure InterruptFrame where
  es : Nat := 0
  ds : Nat := 0
  r15 : Nat := 0
  r14 : Nat := 0
  r13 : Nat := 0
  r12 : Nat := 0
  r11 : Nat := 0
  r10 : Nat := 0
  r9 : Nat := 0
  r8 : Nat := 0
  rbp : Nat := 0
  rdi : Nat := 0
  rsi : Nat := 0
  rdx : Nat := 0
  rcx : Nat := 0
  rbx : Nat := 0
  rax : Nat := 0
  err : Nat := 0
  rip : Nat := 0
  cs : Nat := 0
  rflags : Nat := 0
  rsp : Nat := 0
  ss : Nat := 0
  deriving DecidableEq, Repr

/-- The part of `struct cpu_local` and of the CPU's registers the scheduler uses. -/
structure CpuLocal where
  currentThread : Nat := 0
  idleThread : Nat := 0
  gsBase : Nat := 0
  kgsBase : Nat := 0
  cr3 : Nat := 0
  /-- The argument of the last `lapic_timer_oneshot`. -/
  timer : Nat := 0
  deriving DecidableEq, Repr

structure Sched (n : Nat) where
  queue : RunQueue
  frames : FrameRef → InterruptFrame
  cpus : Fin n → CpuLocal

namespace Sched
variable {n : Nat}

def thread (s : Sched n) (t : Nat) : Thread := s.queue.threads t
def current (s : Sched n) (c : Fin n) : Nat := (s.cpus c).currentThread
def idle (s : Sched n) (c : Fin n) : Nat := (s.cpus c).idleThread

def modify (s : Sched n) (t : Nat) (f : Thread → Thread) : Sched n :=
  { s with queue := s.queue.modify t f }

def modifyCpu (s : Sched n) (c : Fin n) (f : CpuLocal → CpuLocal) : Sched n :=
  { s with cpus := Function.update s.cpus c (f (s.cpus c)) }

end Sched

def timeQuantum : Nat := 3
def userCs : Nat := 0x3b

section Source
variable {n : Nat}

/-- The loop of `get_next_thread` from `next_thread`; `none` is a walk that has
not come back within the fuel. A zero result is `NULL`. -/
def getNextThreadLoop (q : RunQueue) (currentThread : Nat) : Nat → Nat → Option (Nat × RunQueue)
  | 0, _ => none
  | fuel+1, nextThread =>
      if nextThread = currentThread ∨ nextThread = 0 then some (0, q)
      else if (q.threads nextThread).blocked ∨ (q.threads nextThread).running then
        getNextThreadLoop q currentThread fuel (q.next nextThread)
      else
        match spinlockTestAndAcq (q.threads nextThread).lock with
        | (true, lock) => some (nextThread, q.modify nextThread fun r => { r with lock := lock })
        | (false, _) => getNextThreadLoop q currentThread fuel (q.next nextThread)

def getNextThread (fuel : Nat) (s : Sched n) (c : Fin n) : Option (Nat × RunQueue) :=
  getNextThreadLoop s.queue (s.current c) fuel (s.queue.next (s.current c))

/-- The head of `sched_vector`: a running thread keeps the frame pointer it was given. -/
def saveState (s : Sched n) (c : Fin n) (state : FrameRef) : Sched n :=
  if (s.thread (s.current c)).running then
    s.modify (s.current c) fun r => { r with state := state, gsBase := (s.cpus c).gsBase }
  else s

/-- `switch_to_thread`: the popped frame is read through `thread->state`, and
`swapgs` exchanges the two GS bases. -/
def switchToThread (s : Sched n) (c : Fin n) (t : Nat) : Sched n × InterruptFrame :=
  let s := s.modify t fun r => { r with running := true }
  (s.modifyCpu c fun r => { r with gsBase := r.kgsBase, kgsBase := r.gsBase },
    s.frames (s.thread t).state)

/-- The tail of `sched_vector` once a thread has been found. -/
def switchFrom (s : Sched n) (c : Fin n) (nextThread : Nat) : Sched n × InterruptFrame :=
  let currentThread := s.current c
  let s := s.modify currentThread fun r =>
    { r with running := false, lock := spinlockRelease r.lock }
  let s := s.modifyCpu c fun r => { r with currentThread := nextThread }
  let kgs := if (s.frames (s.thread nextThread).state).cs = userCs then (s.thread nextThread).gsBase
    else (s.cpus c).gsBase
  let s := s.modifyCpu c fun r =>
    { r with kgsBase := kgs, cr3 := (s.thread nextThread).cr3,
             timer := (s.thread currentThread).timeslice }
  switchToThread s c nextThread

/-- `sched_vector`. The second component is the thread that was switched to and
the frame popped for it; without one the interrupt returns to the thread it hit. -/
def schedVector (fuel : Nat) (s : Sched n) (c : Fin n) (state : FrameRef) :
    Option (Sched n × Option (Nat × InterruptFrame)) :=
  let s := saveState s c state
  match getNextThread fuel s c with
  | none => none
  | some (nextThread, q) =>
      if nextThread = 0 then
        some (({ s with queue := q } : Sched n).modifyCpu c fun r =>
          { r with timer := (s.thread (s.current c)).timeslice }, none)
      else
        let r := switchFrom { s with queue := q } c nextThread
        some (r.1, some (nextThread, r.2))

/-- One scheduler interrupt: the stub pushes the interrupted registers on the
CPU's IST1 stack, whose top never moves, and hands that address on. -/
def schedTick (fuel : Nat) (s : Sched n) (c : Fin n) (frame : InterruptFrame) :
    Option (Sched n × Option (Nat × InterruptFrame)) :=
  schedVector fuel { s with frames := Function.update s.frames (.ist c) frame } c (.ist c)

/-- The record both thread constructors build before they enqueue it. -/
def createThread (s : Sched n) (t cr3 : Nat) (frame : InterruptFrame) : Sched n :=
  let s : Sched n := { s with frames := Function.update s.frames (.heap t) frame }
  let s := s.modify t fun _ => { cr3 := cr3, timeslice := timeQuantum, state := .heap t }
  { s with queue := schedEnqueueThread s.queue t }

/-- The idle thread `core_init` makes for its CPU. -/
def coreInit (s : Sched n) (c : Fin n) (t : Nat) : Sched n :=
  let s := s.modify t fun _ => { blocked := true }
  let s := s.modifyCpu c fun r => { r with idleThread := t, currentThread := t }
  { s with queue := schedEnqueueThread s.queue t }

def dequeueAndDie (s : Sched n) (c : Fin n) : Sched n :=
  let s : Sched n := { s with queue := dequeueThread s.queue (s.current c) }
  s.modifyCpu c fun r => { r with currentThread := r.idleThread }

end Source

/-! ### What a step does -/

section Spec
variable {n : Nat}

@[simp] theorem thread_modify (s : Sched n) (t x : Nat) (f : Thread → Thread) :
    (s.modify t f).thread x = if x = t then f (s.thread t) else s.thread x := by
  simp only [Sched.thread, Sched.modify, RunQueue.modify, Function.update_apply]

@[simp] theorem modify_cpus (s : Sched n) (t : Nat) (f : Thread → Thread) :
    (s.modify t f).cpus = s.cpus := rfl

@[simp] theorem modify_frames (s : Sched n) (t : Nat) (f : Thread → Thread) :
    (s.modify t f).frames = s.frames := rfl

@[simp] theorem thread_modifyCpu (s : Sched n) (c : Fin n) (f : CpuLocal → CpuLocal) (x : Nat) :
    (s.modifyCpu c f).thread x = s.thread x := rfl

@[simp] theorem modifyCpu_frames (s : Sched n) (c : Fin n) (f : CpuLocal → CpuLocal) :
    (s.modifyCpu c f).frames = s.frames := rfl

@[simp] theorem modifyCpu_cpus (s : Sched n) (c d : Fin n) (f : CpuLocal → CpuLocal) :
    (s.modifyCpu c f).cpus d = if d = c then f (s.cpus c) else s.cpus d := by
  simp only [Sched.modifyCpu, Function.update_apply]

/-- The links, the queue ends, the flags of enqueuing and blocking and the idle
threads are as before. -/
structure SameShape (s s' : Sched n) : Prop where
  next : ∀ x, (s'.thread x).next = (s.thread x).next
  prev : ∀ x, (s'.thread x).prev = (s.thread x).prev
  enqueued : ∀ x, (s'.thread x).enqueued = (s.thread x).enqueued
  blocked : ∀ x, (s'.thread x).blocked = (s.thread x).blocked
  queueStart : s'.queue.queueStart = s.queue.queueStart
  queueEnd : s'.queue.queueEnd = s.queue.queueEnd
  idle : ∀ d, s'.idle d = s.idle d

/-- A tick that found no other thread: only the saved frame pointer moved. -/
structure Stays (s : Sched n) (c : Fin n) (frame : InterruptFrame) (s' : Sched n) : Prop where
  shape : SameShape s s'
  current : ∀ d, s'.current d = s.current d
  lock : ∀ x, (s'.thread x).lock = (s.thread x).lock
  running : ∀ x, (s'.thread x).running = (s.thread x).running
  state : ∀ x, (s'.thread x).state =
    if x = s.current c ∧ (s.thread x).running then .ist c else (s.thread x).state
  frames : s'.frames = Function.update s.frames (.ist c) frame

/-- A tick that moved the CPU from its current thread to `t`. -/
structure Switches (s : Sched n) (c : Fin n) (frame : InterruptFrame) (t : Nat)
    (s' : Sched n) : Prop where
  shape : SameShape s s'
  chosen : t ≠ 0 ∧ t ≠ s.current c
  free : (s.thread t).blocked = false ∧ (s.thread t).running = false ∧ (s.thread t).lock = 0
  current : ∀ d, s'.current d = if d = c then t else s.current d
  lock : ∀ x, (s'.thread x).lock = if x = t then 1
    else if x = s.current c then spinlockRelease (s.thread x).lock else (s.thread x).lock
  running : ∀ x, (s'.thread x).running = if x = t then true
    else if x = s.current c then false else (s.thread x).running
  state : ∀ x, (s'.thread x).state =
    if x = s.current c ∧ (s.thread x).running then .ist c else (s.thread x).state
  frames : s'.frames = Function.update s.frames (.ist c) frame

/-- The walk of `get_next_thread` stays inside any set closed under `next`. -/
theorem getNextThreadLoop_spec {q q' : RunQueue} {cur fuel x t : Nat} {P : Nat → Prop}
    (hclosed : ∀ y, P y → P (q.next y)) (hx : P x)
    (h : getNextThreadLoop q cur fuel x = some (t, q')) :
    (t = 0 ∧ q' = q) ∨ (t ≠ 0 ∧ t ≠ cur ∧ P t ∧ (q.threads t).blocked = false ∧
      (q.threads t).running = false ∧ (q.threads t).lock = 0 ∧
      q' = q.modify t fun r => { r with lock := 1 }) := by
  induction fuel generalizing x with
  | zero => cases h
  | succ fuel ih =>
      unfold getNextThreadLoop at h
      by_cases hend : x = cur ∨ x = 0
      · rw [if_pos hend] at h
        cases h
        exact .inl ⟨rfl, rfl⟩
      · rw [if_neg hend] at h
        by_cases hbusy : (q.threads x).blocked ∨ (q.threads x).running
        · rw [if_pos hbusy] at h
          exact ih (hclosed x hx) h
        · rw [if_neg hbusy] at h
          by_cases hlock : (q.threads x).lock = 0
          · simp only [spinlockTestAndAcq, if_pos hlock, Option.some.injEq, Prod.mk.injEq] at h
            obtain ⟨rfl, rfl⟩ := h
            simp only [not_or, Bool.not_eq_true] at hend hbusy
            exact .inr ⟨hend.2, hend.1, hx, hbusy.1, hbusy.2, hlock, rfl⟩
          · simp only [spinlockTestAndAcq, if_neg hlock] at h
            exact ih (hclosed x hx) h

/-- A change of one record that keeps a field of it keeps that field everywhere. -/
theorem thread_field_modify {β : Type} (g : Thread → β) (s : Sched n) (t x : Nat)
    (f : Thread → Thread) (hf : ∀ r, g (f r) = g r) :
    g ((s.modify t f).thread x) = g (s.thread x) :=
  modify_field s.queue t x g f hf

/-- What `sched_vector` has changed when it starts to look for the next thread. -/
theorem saveState_stays (s : Sched n) (c : Fin n) (frame : InterruptFrame) :
    Stays s c frame (saveState { s with frames := Function.update s.frames (.ist c) frame } c
      (.ist c)) := by
  unfold saveState
  split
  · rename_i h
    have hrun : (s.thread (s.current c)).running = true := h
    refine ⟨⟨?_, ?_, ?_, ?_, rfl, rfl, fun _ => rfl⟩, fun _ => rfl, ?_, ?_, ?_, rfl⟩
    · exact fun x => thread_field_modify Thread.next _ _ x _ fun _ => rfl
    · exact fun x => thread_field_modify Thread.prev _ _ x _ fun _ => rfl
    · exact fun x => thread_field_modify Thread.enqueued _ _ x _ fun _ => rfl
    · exact fun x => thread_field_modify Thread.blocked _ _ x _ fun _ => rfl
    · exact fun x => thread_field_modify Thread.lock _ _ x _ fun _ => rfl
    · exact fun x => thread_field_modify Thread.running _ _ x _ fun _ => rfl
    · intro x
      rw [thread_modify]
      by_cases hx : x = s.current c
      · subst hx
        rw [if_pos (And.intro rfl hrun)]
        exact congrArg Thread.state (if_pos rfl)
      · have hnot : ¬ (x = s.current c ∧ (s.thread x).running = true) := fun h => hx h.1
        rw [if_neg hnot]
        exact congrArg Thread.state (if_neg hx)
  · rename_i hrun
    refine ⟨⟨fun _ => rfl, fun _ => rfl, fun _ => rfl, fun _ => rfl, rfl, rfl, fun _ => rfl⟩,
      fun _ => rfl, fun _ => rfl, fun _ => rfl, ?_, rfl⟩
    intro x
    have hnot : ¬ (x = s.current c ∧ (s.thread x).running = true) := by
      rintro ⟨rfl, h⟩
      exact hrun h
    rw [if_neg hnot]
    rfl

/-- The switch itself: `t` runs on the CPU and the thread it had is let go. -/
theorem switchFrom_spec (s : Sched n) (c : Fin n) {t : Nat} (ht : t ≠ s.current c) :
    (switchFrom s c t).1.frames = s.frames ∧
    (switchFrom s c t).1.queue.queueStart = s.queue.queueStart ∧
    (switchFrom s c t).1.queue.queueEnd = s.queue.queueEnd ∧
    (∀ d, (switchFrom s c t).1.idle d = s.idle d) ∧
    (∀ d, (switchFrom s c t).1.current d = if d = c then t else s.current d) ∧
    (∀ x, (switchFrom s c t).1.thread x = if x = t then { s.thread x with running := true }
      else if x = s.current c then
        { s.thread x with running := false, lock := spinlockRelease (s.thread x).lock }
      else s.thread x) ∧
    (switchFrom s c t).2 = s.frames (s.thread t).state := by
  refine ⟨rfl, rfl, rfl, ?_, ?_, ?_, ?_⟩
  · intro d
    simp only [switchFrom, switchToThread, Sched.idle, modifyCpu_cpus, modify_cpus]
    split
    · subst d; rfl
    · rfl
  · intro d
    simp only [switchFrom, switchToThread, Sched.current, modifyCpu_cpus, modify_cpus]
    split <;> rfl
  · intro x
    simp only [switchFrom, switchToThread, thread_modifyCpu, thread_modify, if_neg ht]
    by_cases hx : x = t
    · simp only [hx, if_true]
    · by_cases hc : x = s.current c
      · rw [if_neg hx, if_pos hc, if_neg hx, if_pos hc, hc]
      · simp only [hx, hc, if_false]
  · simp only [switchFrom, switchToThread, thread_modifyCpu, thread_modify, modifyCpu_frames,
      modify_frames, if_neg ht, if_true]

/-- Of a thread's record the switch changes `running` and `lock` only. -/
theorem switchFrom_field (s : Sched n) (c : Fin n) {t : Nat} (ht : t ≠ s.current c) {β : Type} (g : Thread → β)
    (hg : ∀ (r : Thread) running lock, g { r with running, lock } = g r) (x : Nat) :
    g ((switchFrom s c t).1.thread x) = g (s.thread x) := by
  obtain ⟨-, -, -, -, -, hthread, -⟩ := switchFrom_spec s c ht
  rw [hthread]
  split
  · exact hg _ true _
  · split
    · exact hg _ false _
    · rfl

theorem Stays.timer {s v : Sched n} {c : Fin n} {frame : InterruptFrame}
    (hv : Stays s c frame v) (k : Nat) :
    Stays s c frame (v.modifyCpu c fun r => { r with timer := k }) := by
  have hcpu : ∀ {β : Type} (g : CpuLocal → β) (d : Fin n),
      (∀ r : CpuLocal, g { r with timer := k } = g r) →
      g ((v.modifyCpu c fun r => { r with timer := k }).cpus d) = g (v.cpus d) := by
    intro β g d hg
    rw [modifyCpu_cpus]
    split
    · subst d; exact hg _
    · rfl
  refine ⟨⟨hv.shape.next, hv.shape.prev, hv.shape.enqueued, hv.shape.blocked,
    hv.shape.queueStart, hv.shape.queueEnd, ?_⟩, ?_, hv.lock, hv.running, hv.state, hv.frames⟩
  · intro d
    exact (hcpu CpuLocal.idleThread d fun _ => rfl).trans (hv.shape.idle d)
  · intro d
    exact (hcpu CpuLocal.currentThread d fun _ => rfl).trans (hv.current d)

/-- Taking the lock of a free thread and switching to it. -/
theorem Stays.switch {s v : Sched n} {c : Fin n} {frame : InterruptFrame} {t : Nat}
    (hv : Stays s c frame v) (h0 : t ≠ 0) (hne : t ≠ s.current c)
    (hb : (v.thread t).blocked = false) (hrun : (v.thread t).running = false)
    (hl : (v.thread t).lock = 0) :
    let w := switchFrom (v.modify t fun r => { r with lock := 1 }) c t
    Switches s c frame t w.1 ∧ w.2 = w.1.frames (w.1.thread t).state := by
  intro w
  have hcur : (v.modify t fun r => { r with lock := 1 }).current c = s.current c := hv.current c
  obtain ⟨hframes, hstart, hend, hidle, hcurrent, hthread, hpop⟩ :=
    switchFrom_spec (v.modify t fun r => { r with lock := 1 }) c (hcur.symm ▸ hne)
  simp only [hcur, thread_modify] at hthread
  have hkeep : ∀ {β : Type} (g : Thread → β), (∀ (r : Thread) running lock, g { r with running, lock } = g r) →
      ∀ x, g (w.1.thread x) = g (v.thread x) := by
    intro β g hg x
    refine (switchFrom_field _ c (hcur.symm ▸ hne) g hg x).trans ?_
    exact thread_field_modify g v t x _ fun r => hg r r.running 1
  refine ⟨⟨⟨?_, ?_, ?_, ?_, ?_, ?_, ?_⟩, ⟨h0, hne⟩, ?_, ?_, ?_, ?_, ?_, ?_⟩, ?_⟩
  · exact fun x => (hkeep Thread.next (fun _ _ _ => rfl) x).trans (hv.shape.next x)
  · exact fun x => (hkeep Thread.prev (fun _ _ _ => rfl) x).trans (hv.shape.prev x)
  · exact fun x => (hkeep Thread.enqueued (fun _ _ _ => rfl) x).trans (hv.shape.enqueued x)
  · exact fun x => (hkeep Thread.blocked (fun _ _ _ => rfl) x).trans (hv.shape.blocked x)
  · exact hstart.trans hv.shape.queueStart
  · exact hend.trans hv.shape.queueEnd
  · exact fun d => (hidle d).trans (hv.shape.idle d)
  · exact ⟨(hv.shape.blocked t).symm.trans hb, (hv.running t).symm.trans hrun,
      (hv.lock t).symm.trans hl⟩
  · exact fun d => (hcurrent d).trans (by rw [← hv.current d]; rfl)
  · intro x
    rw [hthread]
    by_cases hx : x = t
    · simp only [hx, if_true]
    · by_cases hxc : x = s.current c
      · rw [if_neg hx, if_pos hxc, if_neg hx, if_neg hx, if_pos hxc, ← hv.lock x]
      · simp only [if_neg hx, if_neg hxc, hv.lock x]
  · intro x
    rw [hthread]
    by_cases hx : x = t
    · simp only [hx, if_true]
    · by_cases hxc : x = s.current c
      · rw [if_neg hx, if_pos hxc, if_neg hx, if_neg hx, if_pos hxc]
      · simp only [if_neg hx, if_neg hxc, hv.running x]
  · exact fun x => (hkeep Thread.state (fun _ _ _ => rfl) x).trans (hv.state x)
  · exact hframes.trans hv.frames
  · rw [hkeep Thread.state fun _ _ _ => rfl]
    refine hpop.trans ?_
    rw [hframes, thread_modify, if_pos rfl]

/-- Every tick either leaves the CPU where it was or moves it to a free thread
that the walk along `next` meets. -/
theorem schedTick_spec {s s' : Sched n} {c : Fin n} {frame : InterruptFrame} {fuel : Nat}
    {r : Option (Nat × InterruptFrame)} {P : Nat → Prop}
    (hclosed : ∀ y, P y → P (s.thread y).next) (hcur : P (s.current c))
    (h : schedTick fuel s c frame = some (s', r)) :
    (r = none ∧ Stays s c frame s') ∨
    ∃ t, P t ∧ Switches s c frame t s' ∧ r = some (t, s'.frames (s'.thread t).state) := by
  have hv := saveState_stays s c frame
  unfold schedTick schedVector at h
  generalize saveState { s with frames := Function.update s.frames (.ist c) frame } c (.ist c) = v
    at h hv
  dsimp only at h
  split at h
  · cases h
  · rename_i t q hfound
    unfold getNextThread at hfound
    rw [hv.current] at hfound
    have hP : ∀ y, P y → P (v.queue.next y) := by
      intro y hy
      have hnext : v.queue.next y = (s.thread y).next := hv.shape.next y
      exact hnext.symm ▸ hclosed y hy
    rcases getNextThreadLoop_spec hP (hP _ hcur) hfound with ⟨rfl, rfl⟩ | ⟨h0, hne, hPt, hfree⟩
    · simp only [if_true, Option.some.injEq, Prod.mk.injEq] at h
      obtain ⟨rfl, rfl⟩ := h
      exact .inl ⟨rfl, hv.timer _⟩
    · rw [if_neg h0] at h
      obtain ⟨hb, hrun, hl, rfl⟩ := hfree
      simp only [Option.some.injEq, Prod.mk.injEq] at h
      obtain ⟨rfl, rfl⟩ := h
      obtain ⟨hw, hf⟩ := hv.switch h0 hne hb hrun hl
      exact .inr ⟨t, hPt, hw, congrArg (fun f => some (t, f)) hf⟩

theorem schedTick_idle {s s' : Sched n} {c : Fin n} {frame : InterruptFrame} {fuel : Nat}
    {r : Option (Nat × InterruptFrame)} (h : schedTick fuel s c frame = some (s', r)) (d : Fin n) :
    s'.idle d = s.idle d := by
  rcases schedTick_spec (P := fun _ => True) (fun _ _ => trivial) trivial h with ⟨-, hs⟩ | ⟨t, -, hs, -⟩
  · exact hs.shape.idle d
  · exact hs.shape.idle d

/-- The two ways a tick ends, from the state `v` in which the running thread has been saved. -/
theorem schedTick_cases {s s' v : Sched n} {c : Fin n} {frame : InterruptFrame} {fuel : Nat}
    {r : Option (Nat × InterruptFrame)}
    (hv : saveState { s with frames := Function.update s.frames (.ist c) frame } c (.ist c) = v)
    (h : schedTick fuel s c frame = some (s', r)) :
    (r = none ∧ s' = v.modifyCpu c fun r => { r with timer := (v.thread (v.current c)).timeslice }) ∨
    ∃ t f, t ≠ v.current c ∧ r = some (t, f) ∧ s' = (switchFrom (v.modify t fun r => { r with lock := 1 }) c t).1 := by
  unfold schedTick schedVector at h
  rw [hv] at h
  dsimp only at h
  split at h
  · cases h
  · rename_i t q hfound
    rcases getNextThreadLoop_spec (P := fun _ => True) (fun _ _ => trivial) trivial hfound with
      ⟨rfl, rfl⟩ | ⟨h0, hne, -, -, -, -, rfl⟩
    · simp only [if_true, Option.some.injEq, Prod.mk.injEq] at h
      exact .inl ⟨h.2.symm, h.1.symm⟩
    · rw [if_neg h0] at h
      simp only [Option.some.injEq, Prod.mk.injEq] at h
      exact .inr ⟨t, _, hne, h.2.symm, h.1.symm⟩

theorem saveState_field {β : Type} (g : Thread → β)
    (hsave : ∀ (r : Thread) state gsBase, g { r with state, gsBase } = g r) (s : Sched n) (c : Fin n) (state : FrameRef)
    (x : Nat) : g ((saveState s c state).thread x) = g (s.thread x) := by
  unfold saveState
  split
  · exact thread_field_modify g _ _ x _ fun r => hsave r _ _
  · rfl

theorem saveState_cpus (s : Sched n) (c : Fin n) (state : FrameRef) : (saveState s c state).cpus = s.cpus := by
  unfold saveState
  split <;> rfl

/-- A tick keeps what is neither saved nor part of a lock in the record of every thread. -/
theorem schedTick_field {β : Type} (g : Thread → β)
    (hsave : ∀ (r : Thread) state gsBase, g { r with state, gsBase } = g r)
    (hlock : ∀ (r : Thread) running lock, g { r with running, lock } = g r) {s s' : Sched n} {c : Fin n}
    {frame : InterruptFrame} {fuel : Nat} {r : Option (Nat × InterruptFrame)}
    (h : schedTick fuel s c frame = some (s', r)) (x : Nat) : g (s'.thread x) = g (s.thread x) := by
  have hsaved := saveState_field g hsave { s with frames := Function.update s.frames (.ist c) frame } c (.ist c) x
  rcases schedTick_cases rfl h with ⟨-, rfl⟩ | ⟨t, f, hne, -, rfl⟩
  · exact hsaved
  · refine (switchFrom_field (Sched.modify _ t fun r => { r with lock := 1 }) c hne g hlock x).trans ?_
    exact (thread_field_modify g _ t x _ fun r => hlock r r.running 1).trans hsaved

/-- The switch leaves in the record of its CPU the page map of the thread it takes and the time slice of the one it
leaves. -/
theorem switchFrom_cpus (s : Sched n) (c : Fin n) {t : Nat} (ht : t ≠ s.current c) :
    (∀ d, d ≠ c → (switchFrom s c t).1.cpus d = s.cpus d) ∧
    ((switchFrom s c t).1.cpus c).timer = (s.thread (s.current c)).timeslice ∧
    ((switchFrom s c t).1.cpus c).cr3 = (s.thread t).cr3 := by
  refine ⟨fun d hd => ?_, ?_, ?_⟩
  · simp only [switchFrom, switchToThread, modifyCpu_cpus, modify_cpus, if_neg hd]
  · simp only [switchFrom, switchToThread, modifyCpu_cpus, modify_cpus, thread_modifyCpu, thread_modify, if_true]
  · simp only [switchFrom, switchToThread, modifyCpu_cpus, modify_cpus, thread_modifyCpu, thread_modify, if_true,
      if_neg ht]

/-- What a tick leaves in the records of the CPUs. -/
theorem schedTick_cpus {s s' : Sched n} {c : Fin n} {frame : InterruptFrame} {fuel : Nat}
    {r : Option (Nat × InterruptFrame)} (h : schedTick fuel s c frame = some (s', r)) :
    (∀ d, d ≠ c → s'.cpus d = s.cpus d) ∧ (s'.cpus c).timer = (s.thread (s.current c)).timeslice ∧
    (r = none → (s'.cpus c).cr3 = (s.cpus c).cr3) ∧ ∀ t f, r = some (t, f) → (s'.cpus c).cr3 = (s.thread t).cr3 := by
  have hcpus := saveState_cpus { s with frames := Function.update s.frames (.ist c) frame } c (.ist c)
  have hfield := fun {β : Type} (g : Thread → β) (hg : ∀ (r : Thread) state gsBase, g { r with state, gsBase } = g r) =>
    saveState_field g hg { s with frames := Function.update s.frames (.ist c) frame } c (.ist c)
  generalize hv : saveState { s with frames := Function.update s.frames (.ist c) frame } c (.ist c) = v at hcpus hfield
  have hcur : v.current c = s.current c := congrArg CpuLocal.currentThread (congrFun hcpus c)
  have hslice : (v.thread (v.current c)).timeslice = (s.thread (s.current c)).timeslice := by
    rw [hcur]
    exact hfield Thread.timeslice (fun _ _ _ => rfl) (s.current c)
  rcases schedTick_cases hv h with ⟨rfl, rfl⟩ | ⟨t, f, hne, rfl, rfl⟩
  · refine ⟨fun d hd => ?_, ?_, fun _ => ?_, fun t f hr => by cases hr⟩
    · rw [modifyCpu_cpus, if_neg hd]
      exact congrFun hcpus d
    · rw [modifyCpu_cpus, if_pos rfl]
      exact hslice
    · have hcr3 : (v.cpus c).cr3 = (s.cpus c).cr3 := congrArg CpuLocal.cr3 (congrFun hcpus c)
      rw [modifyCpu_cpus, if_pos rfl]
      exact hcr3
  · obtain ⟨hothers, htimer, hcr3⟩ := switchFrom_cpus (v.modify t fun r => { r with lock := 1 }) c hne
    have hkeep := fun {β : Type} (g : Thread → β) (hg : ∀ (r : Thread) lock, g { r with lock } = g r) (x : Nat) =>
      thread_field_modify g v t x (fun r => { r with lock := 1 }) fun r => hg r 1
    refine ⟨fun d hd => (hothers d hd).trans (congrFun hcpus d), ?_, fun hr => (by cases hr), ?_⟩
    · exact htimer.trans ((hkeep Thread.timeslice (fun _ _ => rfl) _).trans hslice)
    · rintro t' f' hr
      obtain ⟨rfl, -⟩ := Prod.mk.inj (Option.some.inj hr)
      exact hcr3.trans ((hkeep Thread.cr3 (fun _ _ => rfl) t).trans (hfield Thread.cr3 (fun _ _ _ => rfl) t))

/-- The walk ends once it is back at the current thread. -/
theorem getNextThreadLoop_returns {q : RunQueue} {cur : Nat} (fuel k x : Nat)
    (hk : q.next^[k] x = cur) (hfuel : k < fuel) :
    ∃ r, getNextThreadLoop q cur fuel x = some r := by
  induction fuel generalizing k x with
  | zero => exact absurd hfuel (Nat.not_lt_zero k)
  | succ fuel ih =>
      unfold getNextThreadLoop
      by_cases hend : x = cur ∨ x = 0
      · rw [if_pos hend]
        exact ⟨_, rfl⟩
      · have hgo : ∃ r, getNextThreadLoop q cur fuel (q.next x) = some r := by
          cases k with
          | zero => exact absurd (.inl hk) hend
          | succ k => exact ih k (q.next x) hk (Nat.lt_of_succ_lt_succ hfuel)
        rw [if_neg hend]
        split
        · exact hgo
        · split
          · exact ⟨_, rfl⟩
          · exact hgo

theorem schedTick_returns (s : Sched n) (c : Fin n) (frame : InterruptFrame) {k fuel : Nat}
    (hk : (fun x => (s.thread x).next)^[k+1] (s.current c) = s.current c) (hfuel : k < fuel) :
    ∃ r, schedTick fuel s c frame = some r := by
  have hv := saveState_stays s c frame
  unfold schedTick schedVector
  generalize saveState { s with frames := Function.update s.frames (.ist c) frame } c (.ist c) = v
    at hv
  have hnext : v.queue.next = fun x => (s.thread x).next := funext hv.shape.next
  have hwalk : v.queue.next^[k] (v.queue.next (v.current c)) = v.current c := by
    rw [hnext, hv.current]
    exact hk
  obtain ⟨r, hr⟩ := getNextThreadLoop_returns fuel k _ hwalk hfuel
  dsimp only
  rw [getNextThread, hr]
  split
  · cases ‹some r = none›
  · split <;> exact ⟨_, rfl⟩

/-- Linking a thread in at the end writes links and the `enqueued` flag only. -/
theorem linkAtEnd_field {β : Type} (g : Thread → β) (q : RunQueue) (t x : Nat)
    (hnext : ∀ (r : Thread) v, g { r with next := v } = g r)
    (hprev : ∀ (r : Thread) v, g { r with prev := v } = g r)
    (henq : ∀ (r : Thread) v, g { r with enqueued := v } = g r) :
    g ((linkAtEnd q t).threads x) = g (q.threads x) := by
  simp only [linkAtEnd, RunQueue.markEnqueued, RunQueue.setPrev, RunQueue.setNext,
    RunQueue.setEnd]
  simp only [modify_field, hnext, hprev, henq, implies_true]

/-- A thread that has just been created waits behind the end of the queue. -/
structure Created (s : Sched n) (t : Nat) (frame : InterruptFrame) (s' : Sched n) : Prop where
  next : ∀ x, s'.queue.next x = (linkAtEnd s.queue t).next x
  prev : ∀ x, s'.queue.prev x = (linkAtEnd s.queue t).prev x
  enqueued : ∀ x, (s'.thread x).enqueued = if x = t then true else (s.thread x).enqueued
  blocked : ∀ x, (s'.thread x).blocked = if x = t then false else (s.thread x).blocked
  lock : ∀ x, (s'.thread x).lock = if x = t then 0 else (s.thread x).lock
  running : ∀ x, (s'.thread x).running = if x = t then false else (s.thread x).running
  state : ∀ x, (s'.thread x).state = if x = t then .heap t else (s.thread x).state
  frames : s'.frames = Function.update s.frames (.heap t) frame
  queueStart : s'.queue.queueStart = s.queue.queueStart
  queueEnd : s'.queue.queueEnd = t
  cpus : s'.cpus = s.cpus

/-- The record of a new thread is linked at the end. -/
theorem createThread_queue {s : Sched n} {t : Nat} (cr3 : Nat) (frame : InterruptFrame)
    (hstart : s.queue.queueStart ≠ 0) (hend : s.queue.queueEnd ≠ 0) :
    (createThread s t cr3 frame).queue =
      linkAtEnd (s.queue.modify t fun _ => { cr3 := cr3, timeslice := timeQuantum, state := .heap t }) t := by
  have hfresh : (s.queue.modify t fun _ => { cr3 := cr3, timeslice := timeQuantum, state := .heap t }).enqueued t =
      false := by
    simp [RunQueue.enqueued, RunQueue.modify]
  exact (enqueue_eq hfresh).trans (congrArg (linkAtEnd · t) (openQueue_eq t hstart hend))

/-- Of what is no link, a new thread has its own record and the others have theirs. -/
theorem createThread_field {β : Type} (g : Thread → β)
    (hnext : ∀ (r : Thread) v, g { r with next := v } = g r) (hprev : ∀ (r : Thread) v, g { r with prev := v } = g r)
    (henq : ∀ (r : Thread) v, g { r with enqueued := v } = g r) {s : Sched n} {t : Nat} (cr3 : Nat)
    (frame : InterruptFrame) (hstart : s.queue.queueStart ≠ 0) (hend : s.queue.queueEnd ≠ 0) (x : Nat) :
    g ((createThread s t cr3 frame).thread x) =
      if x = t then g { cr3 := cr3, timeslice := timeQuantum, state := .heap t } else g (s.thread x) := by
  rw [Sched.thread, createThread_queue cr3 frame hstart hend, linkAtEnd_field g _ _ _ hnext hprev henq,
    modify_threads, apply_ite g]
  rfl

theorem createThread_spec {s : Sched n} {t : Nat} (cr3 : Nat) (frame : InterruptFrame)
    (hstart : s.queue.queueStart ≠ 0) (hend : s.queue.queueEnd ≠ 0) :
    Created s t frame (createThread s t cr3 frame) := by
  have hq := createThread_queue (t := t) cr3 frame hstart hend
  have hother : ∀ x, x ≠ t → (s.queue.modify t fun _ =>
      { cr3 := cr3, timeslice := timeQuantum, state := .heap t }).threads x = s.thread x := by
    intro x hx
    rw [modify_threads, if_neg hx]
    rfl
  refine ⟨?_, ?_, ?_, ?_, ?_, ?_, ?_, rfl, ?_, ?_, rfl⟩
  · intro x
    rw [hq, linkAtEnd_next, linkAtEnd_next]
    by_cases hx : x = t
    · rw [if_pos hx, if_pos hx]; rfl
    · rw [if_neg hx, if_neg hx, RunQueue.next, hother x hx]; rfl
  · intro x
    rw [hq, linkAtEnd_prev, linkAtEnd_prev]
    by_cases hx : x = t
    · simp only [hx, if_true]; rfl
    · rw [RunQueue.prev, hother x hx, if_neg hx, if_neg hx]; rfl
  · intro x
    refine (congrArg (fun q => q.enqueued x) hq).trans ?_
    rw [linkAtEnd_enqueued]
    by_cases hx : x = t
    · rw [if_pos hx, if_pos hx]
    · rw [if_neg hx, if_neg hx, RunQueue.enqueued, hother x hx]
  · exact createThread_field Thread.blocked (fun _ _ => rfl) (fun _ _ => rfl) (fun _ _ => rfl) cr3 frame hstart hend
  · exact createThread_field Thread.lock (fun _ _ => rfl) (fun _ _ => rfl) (fun _ _ => rfl) cr3 frame hstart hend
  · exact createThread_field Thread.running (fun _ _ => rfl) (fun _ _ => rfl) (fun _ _ => rfl) cr3 frame hstart hend
  · exact createThread_field Thread.state (fun _ _ => rfl) (fun _ _ => rfl) (fun _ _ => rfl) cr3 frame hstart hend
  · rw [hq]; rfl
  · rw [hq]; rfl

/-- A thread that has died is out of the ring, and its CPU is back at the idle thread. -/
structure Died (s : Sched n) (c : Fin n) (s' : Sched n) : Prop where
  next : ∀ x, s'.queue.next x = (unlink s.queue (s.current c)).next x
  prev : ∀ x, s'.queue.prev x = (unlink s.queue (s.current c)).prev x
  enqueued : ∀ x, (s'.thread x).enqueued = if x = s.current c then false else (s.thread x).enqueued
  blocked : ∀ x, (s'.thread x).blocked = (s.thread x).blocked
  lock : ∀ x, (s'.thread x).lock =
    if x = s.current c then spinlockRelease (s.thread x).lock else (s.thread x).lock
  running : ∀ x, (s'.thread x).running = if x = s.current c then false else (s.thread x).running
  state : ∀ x, (s'.thread x).state = (s.thread x).state
  frames : s'.frames = s.frames
  queueStart : s'.queue.queueStart = s.queue.queueStart
  queueEnd : s'.queue.queueEnd = s.queue.queueEnd
  idle : ∀ d, s'.idle d = s.idle d
  current : ∀ d, s'.current d = if d = c then s.idle c else s.current d

/-- Apart from the links, `unlink` only writes the record of the removed thread. -/
theorem unlink_field {β : Type} (g : Thread → β) (q : RunQueue) (t x : Nat)
    (hnext : ∀ (r : Thread) v, g { r with next := v } = g r)
    (hprev : ∀ (r : Thread) v, g { r with prev := v } = g r) :
    g ((unlink q t).threads x) = g (if x = t then { q.threads x with
      lock := spinlockRelease (q.threads x).lock, enqueued := false, running := false }
      else q.threads x) := by
  let mark : Thread → Thread := fun r =>
    { r with lock := spinlockRelease r.lock, enqueued := false, running := false }
  have hmark : ∀ p : RunQueue, (p.markDequeued t).threads x =
      if x = t then mark (p.threads x) else p.threads x := by
    intro p
    simp only [RunQueue.markDequeued, RunQueue.modify, Function.update_apply]
    split
    · subst x; rfl
    · rfl
  simp only [unlink, hmark, RunQueue.setPrev, RunQueue.setNext]
  split
  · refine (modify_field _ _ _ (fun r => g (mark r)) _ ?_).trans
      (modify_field _ _ _ (fun r => g (mark r)) _ ?_)
    · exact fun r => hnext (mark r) _
    · exact fun r => hprev (mark r) _
  · exact (modify_field _ _ _ g _ fun r => hnext r _).trans
      (modify_field _ _ _ g _ fun r => hprev r _)

theorem dequeueAndDie_spec {s : Sched n} {c : Fin n} (h : (s.thread (s.current c)).enqueued) :
    Died s c (dequeueAndDie s c) := by
  have hq : (dequeueAndDie s c).queue = unlink s.queue (s.current c) := if_pos h
  have hfield : ∀ {β : Type} (g : Thread → β) (x : Nat)
      (_ : ∀ (r : Thread) v, g { r with next := v } = g r)
      (_ : ∀ (r : Thread) v, g { r with prev := v } = g r),
      g ((dequeueAndDie s c).thread x) = if x = s.current c then g { s.thread x with
        lock := spinlockRelease (s.thread x).lock, enqueued := false, running := false }
        else g (s.thread x) := by
    intro β g x hn hp
    rw [Sched.thread, hq, unlink_field g _ _ _ hn hp, apply_ite g]
    rfl
  refine ⟨?_, ?_, ?_, ?_, ?_, ?_, ?_, ?_, ?_, ?_, ?_, ?_⟩
  · exact fun x => congrArg (fun q => q.next x) hq
  · exact fun x => congrArg (fun q => q.prev x) hq
  · exact fun x => hfield Thread.enqueued x (fun _ _ => rfl) fun _ _ => rfl
  · exact fun x => (hfield Thread.blocked x (fun _ _ => rfl) fun _ _ => rfl).trans (ite_self _)
  · exact fun x => hfield Thread.lock x (fun _ _ => rfl) fun _ _ => rfl
  · exact fun x => hfield Thread.running x (fun _ _ => rfl) fun _ _ => rfl
  · exact fun x => (hfield Thread.state x (fun _ _ => rfl) fun _ _ => rfl).trans (ite_self _)
  · rfl
  · rw [hq]; rfl
  · rw [hq]; rfl
  · intro d
    simp only [dequeueAndDie, Sched.idle, modifyCpu_cpus]
    split
    · subst d; rfl
    · rfl
  · intro d
    simp only [dequeueAndDie, Sched.current, modifyCpu_cpus]
    split <;> rfl

/-- A death keeps what is neither a link nor a flag nor a lock. -/
theorem dequeueAndDie_field {β : Type} (g : Thread → β)
    (hnext : ∀ (r : Thread) v, g { r with next := v } = g r) (hprev : ∀ (r : Thread) v, g { r with prev := v } = g r)
    (hflags : ∀ (r : Thread) lock enqueued running, g { r with lock, enqueued, running } = g r) {s : Sched n} {c : Fin n}
    (h : (s.thread (s.current c)).enqueued) (x : Nat) : g ((dequeueAndDie s c).thread x) = g (s.thread x) := by
  have hq : (dequeueAndDie s c).queue = unlink s.queue (s.current c) := if_pos h
  rw [Sched.thread, hq, unlink_field g _ _ _ hnext hprev, apply_ite g, hflags, ite_self]
  rfl

end Spec

/-- The CPU of a machine with one. -/
def soleCpu : Fin 1 := ⟨0, Nat.one_pos⟩

end Flan.Proc
