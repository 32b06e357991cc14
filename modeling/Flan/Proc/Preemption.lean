import Flan.Dev.Lapic
import Flan.Proc.Exclusion

/-! The scheduler with the timers that drive it. `sched_vector` sets the timer of its CPU to the time slice of the
thread it leaves. That of an idle thread is zero, and a count of zero stops the timer. -/
namespace Flan.Proc
open Flan.Lib Flan.Dev

/-- The machine with the local APIC of every CPU: whether its timer counts down, and whether an interrupt that the CPU
has sent to itself is pending. -/
structure Timed (n : Nat) where
  world : World n
  lapic : Fin n → TimerCpu
  counting : Fin n → Bool
  ipi : Fin n → Bool

inductive TimedEvent (n : Nat) where
  | timer (c : Fin n) (frame : InterruptFrame)
  | ipi (c : Fin n) (frame : InterruptFrame)
  | create (t cr3 : Nat) (frame : InterruptFrame)
  | die (c : Fin n)

/-- `SCHED_VECTOR`. -/
def schedVectorNumber : BitVec 8 := 34

section Timers
variable {n : Nat}

namespace Timed

/-- `lapic_timer_oneshot`. The timer starts to count unless the count is zero. -/
def oneshot (T : Timed n) (c : Fin n) (ms : Nat) : Timed n :=
  let lapic := (T.lapic c).lapicTimerOneshot (BitVec.ofNat 64 ms) schedVectorNumber
  { T with
    lapic := Function.update T.lapic c lapic
    counting := Function.update T.counting c (lapic.lapic .timerInitCount != 0) }

def stop (T : Timed n) (c : Fin n) : Timed n :=
  { T with
    lapic := Function.update T.lapic c (T.lapic c).lapicStop
    counting := Function.update T.counting c false }

/-- The end of `sched_vector`: the state the scheduler is left in, and the timer for the next tick. -/
def ticked (T : Timed n) (c : Fin n) (s : Sched n) : Timed n :=
  ({ T with world := { T.world with sched := s } } : Timed n).oneshot c (s.cpus c).timer

end Timed

/-- A one-shot timer interrupts once. A thread that dies stops the timer and has its CPU interrupt itself; if no thread
is found then, `sched_vector` returns to `__builtin_unreachable()`, from where there is no step. -/
inductive TimedStep : Timed n → TimedEvent n → Timed n → Prop
  | timer {T : Timed n} {c : Fin n} {frame : InterruptFrame} {fuel : Nat} {s' : Sched n}
      {r : Option (Nat × InterruptFrame)} (hcounts : T.counting c = true)
      (h : schedTick fuel T.world.sched c frame = some (s', r)) : TimedStep T (.timer c frame) (T.ticked c s')
  | ipi {T : Timed n} {c : Fin n} {frame : InterruptFrame} {fuel : Nat} {s' : Sched n} {r : Nat × InterruptFrame}
      (hpending : T.ipi c = true) (h : schedTick fuel T.world.sched c frame = some (s', some r)) :
      TimedStep T (.ipi c frame) (({ T with ipi := Function.update T.ipi c false } : Timed n).ticked c s')
  | create {T : Timed n} {t cr3 : Nat} {frame : InterruptFrame} (hz : t ≠ 0) (hnew : t ∉ T.world.created) :
      TimedStep T (.create t cr3 frame) { T with world :=
        { T.world with sched := createThread T.world.sched t cr3 frame, created := t :: T.world.created } }
  | die {T : Timed n} {c : Fin n} (h : T.world.sched.current c ≠ T.world.sched.idle c) :
      TimedStep T (.die c) { T.stop c with
        world := { T.world with
          sched := dequeueAndDie T.world.sched c
          dead := T.world.sched.current c :: T.world.dead }
        ipi := Function.update T.ipi c true }

/-- Once `sched_init` has put `sched_vector` in its place. The timer that a CPU has set in `sched_await` counts, or has
interrupted before that. -/
def timedBoot (order : List (Fin n × Nat)) (lapic : Fin n → TimerCpu) (counting : Fin n → Bool) : Timed n :=
  { world := boot order, lapic, counting, ipi := fun _ => false }

/-! ### The invariant -/

/-- A timer that counts, or an interrupt that is pending, is that of an idle CPU. -/
structure TimedInv (T : Timed n) : Prop where
  sched : SchedInv T.world
  slice : ∀ c, (T.world.sched.thread (T.world.sched.idle c)).timeslice = 0
  counts : ∀ c, T.counting c = true → T.world.sched.current c = T.world.sched.idle c
  pending : ∀ c, T.ipi c = true → T.world.sched.current c = T.world.sched.idle c ∧ T.counting c = false

/-- A time of zero stops the timer, whatever its frequency. -/
theorem oneshot_zero (T : Timed n) (c : Fin n) : (T.oneshot c 0).counting = Function.update T.counting c false := by
  have hcount := (T.lapic c).lapicTimerOneshot_count (BitVec.ofNat 64 0) schedVectorNumber
  have hzero : ((T.lapic c).lapicTimerOneshot (BitVec.ofNat 64 0) schedVectorNumber).lapic .timerInitCount = 0 := by
    refine BitVec.eq_of_toNat_eq (hcount.trans ?_)
    rw [BitVec.toNat_ofNat, Nat.zero_mod, Nat.zero_mul]
    rfl
  rw [Timed.oneshot]
  simp only [hzero, bne_self_eq_false]

/-- A tick of an idle CPU stops its timer. -/
theorem TimedInv.ticked {T : Timed n} {c : Fin n} {frame : InterruptFrame} {fuel : Nat} {s' : Sched n}
    {r : Option (Nat × InterruptFrame)} (h : TimedInv T)
    (hidle : T.world.sched.current c = T.world.sched.idle c)
    (hs : schedTick fuel T.world.sched c frame = some (s', r)) :
    (T.ticked c s').counting = Function.update T.counting c false := by
  have htimer : (s'.cpus c).timer = 0 := by
    rw [(schedTick_cpus hs).2.1, hidle]
    exact h.slice c
  rw [Timed.ticked, htimer]
  exact oneshot_zero _ c

theorem TimedInv.tick {T : Timed n} {c : Fin n} {frame : InterruptFrame} {fuel : Nat} {s' : Sched n}
    {r : Option (Nat × InterruptFrame)} (h : TimedInv T) (hidle : T.world.sched.current c = T.world.sched.idle c)
    (hipi : T.ipi c = false) (hs : schedTick fuel T.world.sched c frame = some (s', r)) : TimedInv (T.ticked c s') := by
  have hcounting := h.ticked hidle hs
  have hsame : ∀ d, d ≠ c → s'.current d = T.world.sched.current d := fun d hd =>
    congrArg CpuLocal.currentThread ((schedTick_cpus hs).1 d hd)
  refine ⟨schedInv_tick h.sched hs, ?_, ?_, ?_⟩
  · intro d
    have hslice := schedTick_field Thread.timeslice (fun _ _ _ => rfl) (fun _ _ _ => rfl) hs (s'.idle d)
    refine hslice.trans ?_
    rw [schedTick_idle hs]
    exact h.slice d
  · intro d hd
    rw [hcounting, Function.update_apply] at hd
    by_cases hdc : d = c
    · rw [if_pos hdc] at hd
      cases hd
    · rw [if_neg hdc] at hd
      exact (hsame d hdc).trans ((h.counts d hd).trans (schedTick_idle hs d).symm)
  · intro d hd
    have hdc : d ≠ c := by
      rintro rfl
      exact Bool.false_ne_true (hipi.symm.trans hd)
    obtain ⟨hcur, hstop⟩ := h.pending d hd
    refine ⟨(hsame d hdc).trans (hcur.trans (schedTick_idle hs d).symm), ?_⟩
    rw [hcounting, Function.update_of_ne hdc]
    exact hstop

/-- The pending interrupt that is taken is pending no more. -/
theorem TimedInv.acknowledge {T : Timed n} (h : TimedInv T) (c : Fin n) :
    TimedInv { T with ipi := Function.update T.ipi c false } := by
  refine ⟨h.sched, h.slice, h.counts, fun d hd => ?_⟩
  dsimp only at hd
  by_cases hdc : d = c
  · rw [hdc, Function.update_self] at hd
    cases hd
  · rw [Function.update_of_ne hdc] at hd
    exact h.pending d hd

theorem TimedInv.step {T T' : Timed n} {e : TimedEvent n} (h : TimedInv T) (hs : TimedStep T e T') : TimedInv T' := by
  cases hs with
  | @timer c frame fuel s' r hcounts hs =>
      have hipi : T.ipi c = false := by
        refine Bool.eq_false_iff.mpr fun hi => ?_
        exact Bool.false_ne_true ((h.pending c hi).2.symm.trans hcounts)
      exact h.tick (h.counts c hcounts) hipi hs
  | @ipi c frame fuel s' r hpending hs =>
      exact (h.acknowledge c).tick (h.pending c hpending).1 (Function.update_self ..) hs
  | @create t cr3 frame hz hnew =>
      obtain ⟨xs, hr, hx⟩ := h.sched
      refine ⟨schedInv_create h.sched hz hnew, fun c => ?_, h.counts, h.pending⟩
      have hold : T.world.sched.idle c ≠ t := fun heq => hnew (heq ▸ hr.created _ (hr.idleOn c))
      refine (createThread_field Thread.timeslice (fun _ _ => rfl) (fun _ _ => rfl) (fun _ _ => rfl) cr3 frame
        hr.ends_ne_zero.1 hr.ends_ne_zero.2 _).trans ((if_neg hold).trans (h.slice c))
  | @die c hne =>
      obtain ⟨xs, hr, hx⟩ := h.sched
      have henq := hr.enqueued _ (hx.currentOn c)
      have hdied := dequeueAndDie_spec henq
      have hcur : ∀ d, d ≠ c → T.world.sched.current d = T.world.sched.idle d →
          (dequeueAndDie T.world.sched c).current d = (dequeueAndDie T.world.sched c).idle d := by
        intro d hdc hd
        rw [hdied.current, if_neg hdc, hdied.idle]
        exact hd
      refine ⟨schedInv_die h.sched hne, fun d => ?_, fun d hd => ?_, fun d hd => ?_⟩
      · refine (dequeueAndDie_field Thread.timeslice (fun _ _ => rfl) (fun _ _ => rfl) (fun _ _ _ _ => rfl) henq
          _).trans ?_
        rw [hdied.idle]
        exact h.slice d
      · dsimp only [Timed.stop] at hd
        by_cases hdc : d = c
        · rw [hdc, Function.update_self] at hd
          cases hd
        · rw [Function.update_of_ne hdc] at hd
          exact hcur d hdc (h.counts d hd)
      · dsimp only [Timed.stop] at hd ⊢
        by_cases hdc : d = c
        · rw [hdc, Function.update_self]
          exact ⟨(hdied.current c).trans ((if_pos rfl).trans (hdied.idle c).symm), rfl⟩
        · rw [Function.update_of_ne hdc] at hd ⊢
          exact ⟨hcur d hdc (h.pending d hd).1, (h.pending d hd).2⟩

theorem coreInit_timeslice {s : Sched n} {c : Fin n} {t : Nat} (h : ∀ x, (s.thread x).timeslice = 0) (x : Nat) :
    ((coreInit s c t).thread x).timeslice = 0 := by
  have hfresh : (s.queue.modify t fun _ => { blocked := true }).enqueued t = false := by
    simp [RunQueue.enqueued, RunQueue.modify]
  have hopen : ∀ q : RunQueue, (openQueue q t).threads = q.threads := by
    intro q
    unfold openQueue
    split <;> rfl
  have hqueue : (coreInit s c t).queue = linkAtEnd (openQueue (s.queue.modify t fun _ => { blocked := true }) t) t :=
    enqueue_eq hfresh
  rw [Sched.thread, hqueue, linkAtEnd_field Thread.timeslice _ _ _ (fun _ _ => rfl) (fun _ _ => rfl) fun _ _ => rfl,
    hopen, modify_threads]
  split
  · rfl
  · exact h x

theorem coresInit_timeslice {order : List (Fin n × Nat)} {s : Sched n} (h : ∀ x, (s.thread x).timeslice = 0) :
    ∀ x, ((coresInit order s).thread x).timeslice = 0 := by
  induction order generalizing s with
  | nil => exact h
  | cons p order ih => exact ih (coreInit_timeslice h)

theorem timedInv_boot {order : List (Fin n × Nat)} (ho : BootOrder order) (lapic : Fin n → TimerCpu)
    (counting : Fin n → Bool) : TimedInv (timedBoot order lapic counting) := by
  refine ⟨schedInv_boot ho, fun c => ?_, fun c _ => ((booted_boot ho).own ho).current c, fun c hc => ?_⟩
  · exact coresInit_timeslice (fun _ => rfl) _
  · cases hc

/-! ### Runs -/

namespace TimedEvent

def timers (c : Fin n) : TimedEvent n → Bool
  | .timer d _ => d = c
  | _ => false

def ipis (c : Fin n) : TimedEvent n → Bool
  | .ipi d _ => d = c
  | _ => false

def dies (c : Fin n) : TimedEvent n → Bool
  | .die d => d = c
  | _ => false

end TimedEvent

/-- What one step does to the interrupts that a CPU may still get. -/
theorem TimedInv.used {T T' : Timed n} {e : TimedEvent n} (h : TimedInv T) (hs : TimedStep T e T') (c : Fin n) :
    (e.timers c).toNat + (T'.counting c).toNat ≤ (T.counting c).toNat ∧
    (e.ipis c).toNat + (T'.ipi c).toNat ≤ (T.ipi c).toNat + (e.dies c).toNat := by
  cases hs with
  | @timer d frame fuel s' r hcounts hs =>
      rw [h.ticked (h.counts d hcounts) hs]
      by_cases hdc : d = c
      · subst hdc
        simp [TimedEvent.timers, TimedEvent.ipis, hcounts, Timed.ticked, Timed.oneshot]
      · simp [TimedEvent.timers, TimedEvent.ipis, hdc, Function.update_of_ne (Ne.symm hdc), Timed.ticked, Timed.oneshot]
  | @ipi d frame fuel s' r hpending hs =>
      rw [(h.acknowledge d).ticked (h.pending d hpending).1 hs]
      by_cases hdc : d = c
      · subst hdc
        simp [TimedEvent.timers, TimedEvent.ipis, hpending, Timed.ticked, Timed.oneshot]
      · simp [TimedEvent.timers, TimedEvent.ipis, hdc, Function.update_of_ne (Ne.symm hdc), Timed.ticked, Timed.oneshot]
  | create hz hnew => simp [TimedEvent.timers, TimedEvent.ipis]
  | @die d hne =>
      by_cases hdc : d = c
      · subst hdc
        simp [TimedEvent.timers, TimedEvent.ipis, TimedEvent.dies, Timed.stop]
      · simp [TimedEvent.timers, TimedEvent.ipis, TimedEvent.dies, Timed.stop, Function.update_of_ne (Ne.symm hdc)]

theorem TimedInv.run {T T' : Timed n} {trace : List (TimedEvent n)} (h : TimedInv T) (hrun : Trace TimedStep T trace T')
    (c : Fin n) :
    TimedInv T' ∧ occurs (TimedEvent.timers c) trace + (T'.counting c).toNat ≤ (T.counting c).toNat ∧
      occurs (TimedEvent.ipis c) trace + (T'.ipi c).toNat ≤ (T.ipi c).toNat + occurs (TimedEvent.dies c) trace := by
  induction hrun with
  | nil => exact ⟨h, by simp [occurs], by simp [occurs]⟩
  | snoc _ hs ih =>
      obtain ⟨hinv, htimers, hipis⟩ := ih
      obtain ⟨hfire, hself⟩ := hinv.used hs c
      simp only [occurs_snoc]
      exact ⟨hinv.step hs, by omega, by omega⟩

/-- No thread is ever preempted by the timer. In every run the timer of a CPU interrupts it at most once and does not
count while a thread runs there, so that after that the CPU only comes to the scheduler when its thread has died. -/
theorem timer_never_preempts {order : List (Fin n × Nat)} (ho : BootOrder order) {lapic : Fin n → TimerCpu}
    {counting : Fin n → Bool} {trace : List (TimedEvent n)} {T : Timed n}
    (hrun : Trace TimedStep (timedBoot order lapic counting) trace T) (c : Fin n) :
    occurs (TimedEvent.timers c) trace ≤ 1 ∧
    occurs (TimedEvent.ipis c) trace ≤ occurs (TimedEvent.dies c) trace ∧
    (T.world.sched.current c ≠ T.world.sched.idle c → T.counting c = false ∧ T.ipi c = false) := by
  obtain ⟨hinv, htimers, hipis⟩ := (timedInv_boot ho lapic counting).run hrun c
  have hle := Bool.toNat_le ((timedBoot order lapic counting).counting c)
  have hnone : ((timedBoot order lapic counting).ipi c).toNat = 0 := rfl
  refine ⟨by omega, by omega, fun hne => ⟨?_, ?_⟩⟩
  · exact Bool.eq_false_iff.mpr fun hc => hne (hinv.counts c hc)
  · exact Bool.eq_false_iff.mpr fun hi => hne (hinv.pending c hi).1

/-- One CPU, and two threads that have not run yet. -/
def twoThreadsWait : World 1 where
  sched := createThread (createThread (boot [(soleCpu, 10)]).sched 20 0 {}) 30 0 {}
  created := [30, 20, 10]
  dead := []

/-- A machine of one CPU whose timer is still to interrupt it. -/
def soleTimed (w : World 1) : Timed 1 :=
  { world := w, lapic := fun _ => TimerCpu.ofReadings 0xfff0 0xfb0d, counting := fun _ => true, ipi := fun _ => false }

theorem soleTimed_create {w : World 1} {t cr3 : Nat} {frame : InterruptFrame} (hz : t ≠ 0) (hnew : t ∉ w.created) :
    TimedStep (soleTimed w) (.create t cr3 frame)
      (soleTimed { w with sched := createThread w.sched t cr3 frame, created := t :: w.created }) :=
  .create hz hnew

theorem twoThreadsWait_timed :
    Trace TimedStep (soleTimed (boot [(soleCpu, 10)])) [.create 20 0 {}, .create 30 0 {}] (soleTimed twoThreadsWait) := by
  have h₁ := @soleTimed_create (boot [(soleCpu, 10)]) 20 0 {} (by decide) (by decide)
  have h₂ := @soleTimed_create ⟨createThread (boot [(soleCpu, 10)]).sched 20 0 {}, [20, 10], []⟩ 30 0 {} (by decide) (by decide)
  exact (Trace.nil.snoc h₁).snoc h₂

/-- The thread the timer has started on the CPU is not interrupted by it any more. -/
theorem first_thread_keeps_cpu : ∃ (trace : List (TimedEvent 1)) (T : Timed 1),
    Trace TimedStep (soleTimed (boot [(soleCpu, 10)])) trace T ∧ T.world.sched.current soleCpu = 20 ∧
      T.counting soleCpu = false := by
  have ho : BootOrder [(soleCpu, 10)] := ⟨by decide, by decide, by decide, by decide, by decide⟩
  obtain ⟨⟨s', r⟩, hs⟩ : ∃ p, schedTick 5 twoThreadsWait.sched soleCpu {} = some p :=
    Option.isSome_iff_exists.mp (by decide +kernel)
  have hthreads : (schedTick 5 twoThreadsWait.sched soleCpu {}).map
      (fun p => (p.1.current soleCpu, p.1.idle soleCpu)) = some (20, 10) := by decide +kernel
  rw [hs] at hthreads
  obtain ⟨hcur, hidle⟩ := Prod.mk.inj (Option.some.inj hthreads)
  have hfires : TimedStep (soleTimed twoThreadsWait) (.timer soleCpu {}) ((soleTimed twoThreadsWait).ticked soleCpu s') :=
    .timer rfl hs
  have hrun := twoThreadsWait_timed.snoc hfires
  have hne : s'.current soleCpu ≠ s'.idle soleCpu := by
    rw [hcur, hidle]
    decide
  exact ⟨_, _, hrun, hcur, ((timer_never_preempts ho hrun soleCpu).2.2 hne).1⟩

/-- No interrupt is left that could take the CPU from its idle thread. -/
structure Asleep (T : Timed n) (c : Fin n) : Prop where
  stopped : T.counting c = false
  silent : T.ipi c = false
  idle : T.world.sched.current c = T.world.sched.idle c

theorem schedTick_other {s s' : Sched n} {c d : Fin n} {frame : InterruptFrame} {fuel : Nat}
    {r : Option (Nat × InterruptFrame)} (hdc : c ≠ d) (hs : schedTick fuel s d frame = some (s', r))
    (h : s.current c = s.idle c) : s'.current c = s'.idle c := by
  rw [Sched.current, Sched.idle, (schedTick_cpus hs).1 c hdc]
  exact h

/-- What the other CPUs do does not wake it. -/
theorem Asleep.step {T T' : Timed n} {e : TimedEvent n} {c : Fin n} (h : Asleep T c) (hinv : TimedInv T)
    (hs : TimedStep T e T') : Asleep T' c ∧ e.timers c = false ∧ e.ipis c = false ∧ e.dies c = false := by
  have hdies : e.dies c = false ∧ T'.world.sched.current c = T'.world.sched.idle c := by
    cases hs with
    | @timer d frame fuel s' r hcounts hs =>
        have hdc : c ≠ d := by
          rintro rfl
          exact Bool.false_ne_true (h.stopped.symm.trans hcounts)
        exact ⟨rfl, schedTick_other hdc hs h.idle⟩
    | @ipi d frame fuel s' r hpending hs =>
        have hdc : c ≠ d := by
          rintro rfl
          exact Bool.false_ne_true (h.silent.symm.trans hpending)
        exact ⟨rfl, schedTick_other hdc hs h.idle⟩
    | create hz hnew => exact ⟨rfl, h.idle⟩
    | @die d hne =>
        have hdc : d ≠ c := by
          rintro rfl
          exact hne h.idle
        obtain ⟨xs, hr, hx⟩ := hinv.sched
        have hdied := dequeueAndDie_spec (hr.enqueued _ (hx.currentOn d))
        refine ⟨decide_eq_false hdc, ?_⟩
        exact (hdied.current c).trans ((if_neg (Ne.symm hdc)).trans (h.idle.trans (hdied.idle c).symm))
  obtain ⟨hfire, hself⟩ := hinv.used hs c
  rw [h.stopped, Bool.toNat_false] at hfire
  rw [h.silent, hdies.1, Bool.toNat_false] at hself
  have hzero : ∀ b : Bool, b.toNat ≤ 0 → b = false := by decide
  exact ⟨⟨hzero _ (by omega), hzero _ (by omega), hdies.2⟩, hzero _ (by omega), hzero _ (by omega), hdies.1⟩

/-- A CPU that its timer has interrupted while there was no thread to take halts for ever: whatever threads are made
later, it takes none of them and takes no further interrupt. -/
theorem cpu_without_thread_sleeps {order : List (Fin n × Nat)} (ho : BootOrder order) {lapic : Fin n → TimerCpu}
    {counting : Fin n → Bool} {trace later : List (TimedEvent n)} {T T₁ T₂ : Timed n} {c : Fin n}
    {frame : InterruptFrame} (hrun : Trace TimedStep (timedBoot order lapic counting) trace T)
    (hfires : TimedStep T (.timer c frame) T₁) (hnone : T₁.world.sched.current c = T₁.world.sched.idle c)
    (hlater : Trace TimedStep T₁ later T₂) :
    T₂.world.sched.current c = T₂.world.sched.idle c ∧
      ∀ e ∈ later, e.timers c = false ∧ e.ipis c = false ∧ e.dies c = false := by
  obtain ⟨hinv, -, -⟩ := (timedInv_boot ho lapic counting).run hrun c
  have hasleep : Asleep T₁ c := by
    cases hfires with
    | timer hcounts hs =>
        have hstopped := congrFun (hinv.ticked (hinv.counts c hcounts) hs) c
        rw [Function.update_self] at hstopped
        refine ⟨hstopped, Bool.eq_false_iff.mpr fun hi => ?_, hnone⟩
        exact Bool.false_ne_true ((hinv.pending c hi).2.symm.trans hcounts)
  have hinv₁ := hinv.step hfires
  suffices hall : Asleep T₂ c ∧ ∀ e ∈ later, e.timers c = false ∧ e.ipis c = false ∧ e.dies c = false from
    ⟨hall.1.idle, hall.2⟩
  induction hlater with
  | nil => exact ⟨hasleep, fun e he => absurd he List.not_mem_nil⟩
  | snoc hmid hs ih =>
      obtain ⟨hsleeps, hquiet⟩ := ih
      obtain ⟨hnext, hlast⟩ := hsleeps.step (hmid.invariant (fun _ _ _ h hs => h.step hs) hinv₁) hs
      refine ⟨hnext, fun e he => ?_⟩
      rcases List.mem_append.mp he with he | he
      · exact hquiet e he
      · rw [List.mem_singleton.mp he]
        exact hlast

/-- A thread that is made after the only tick waits for ever. -/
theorem late_thread_waits : ∃ T₁ T₂ : Timed 1,
    TimedStep (soleTimed (boot [(soleCpu, 10)])) (.timer soleCpu {}) T₁ ∧
    Trace TimedStep T₁ [.create 20 0 {}] T₂ ∧ T₂.world.sched.current soleCpu = T₂.world.sched.idle soleCpu := by
  have ho : BootOrder [(soleCpu, 10)] := ⟨by decide, by decide, by decide, by decide, by decide⟩
  obtain ⟨⟨s', r⟩, hs⟩ : ∃ p, schedTick 5 (boot [(soleCpu, 10)]).sched soleCpu {} = some p :=
    Option.isSome_iff_exists.mp (by decide +kernel)
  have hthreads : (schedTick 5 (boot [(soleCpu, 10)]).sched soleCpu {}).map
      (fun p => (p.1.current soleCpu, p.1.idle soleCpu)) = some (10, 10) := by decide +kernel
  rw [hs] at hthreads
  obtain ⟨hcur, hidle⟩ := Prod.mk.inj (Option.some.inj hthreads)
  have hfires : TimedStep (soleTimed (boot [(soleCpu, 10)])) (.timer soleCpu {})
      ((soleTimed (boot [(soleCpu, 10)])).ticked soleCpu s') := .timer rfl hs
  have hnew : TimedStep ((soleTimed (boot [(soleCpu, 10)])).ticked soleCpu s') (.create 20 0 {}) _ :=
    .create (by decide) (show 20 ∉ [10] by decide)
  refine ⟨_, _, hfires, Trace.nil.snoc hnew, ?_⟩
  exact (cpu_without_thread_sleeps ho Trace.nil hfires (hcur.trans hidle.symm) (Trace.nil.snoc hnew)).1

end Timers

end Flan.Proc
