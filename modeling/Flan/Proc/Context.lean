import Flan.Proc.Exclusion

/-! What a preempted thread gets back. `sched_vector` stores the address of the
frame it was handed, and that address is the one IST1 slot of the CPU, so the
frame survives only as long as the CPU takes no further interrupt. -/
namespace Flan.Proc
open Flan.Lib

/-- The machine with the frame each thread was last interrupted with. -/
structure Traced (n : Nat) where
  world : World n
  captured : Nat → Option InterruptFrame

section Runs
variable {n : Nat}

/-- A tick that hits a running thread captures its registers. -/
def capture (v : Traced n) : Event n → Nat → Option InterruptFrame
  | .tick c frame =>
      if (v.world.sched.thread (v.world.sched.current c)).running then
        Function.update v.captured (v.world.sched.current c) (some frame)
      else v.captured
  | .create .. => v.captured
  | .die .. => v.captured

/-- A step that resumes a thread with the frame it was last captured with, if
it has been captured before. -/
def Restores (v : Traced n) (r : Option (Nat × InterruptFrame)) : Prop :=
  ∀ t f, r = some (t, f) → ∀ g, v.captured t = some g → f = g

/-- No thread that waits on the queue has its frame in the slot of the CPU that
is interrupted. -/
def SlotFree (v : Traced n) : Event n → Prop
  | .tick c _ => ∀ t ∈ v.world.created, (v.world.sched.thread t).enqueued = true →
      (v.world.sched.thread t).running = false → (v.world.sched.thread t).state ≠ .ist c
  | .create .. => True
  | .die .. => True

instance (v : Traced n) : (e : Event n) → Decidable (SlotFree v e)
  | .tick c _ => inferInstanceAs (Decidable (∀ t ∈ v.world.created,
      (v.world.sched.thread t).enqueued = true → (v.world.sched.thread t).running = false →
      (v.world.sched.thread t).state ≠ .ist c))
  | .create .. => isTrue trivial
  | .die .. => isTrue trivial

/-- Runs in which every step meets `C`; the steps are those of the machine. -/
inductive RunsTo (C : Traced n → Event n → Prop) (v : Traced n) : Traced n → Prop
  | refl : RunsTo C v v
  | tail {u : Traced n} {e : Event n} {r : Option (Nat × InterruptFrame)} {w' : World n}
      (h : RunsTo C v u) (hc : C u e) (hs : Step u.world e r w') :
      RunsTo C v { world := w', captured := capture u e }

/-- The steps as a function, for runs on given events. -/
def World.exec (fuel : Nat) (w : World n) :
    Event n → Option (World n × Option (Nat × InterruptFrame))
  | .tick c frame => (schedTick fuel w.sched c frame).map fun p => ({ w with sched := p.1 }, p.2)
  | .create t cr3 frame =>
      if t ≠ 0 ∧ t ∉ w.created then
        some (⟨createThread w.sched t cr3 frame, t :: w.created, w.dead⟩, none)
      else none
  | .die c =>
      if w.sched.current c ≠ w.sched.idle c then
        some (⟨dequeueAndDie w.sched c, w.created, w.sched.current c :: w.dead⟩, none)
      else none

def Traced.exec (C : Traced n → Event n → Prop) [∀ v e, Decidable (C v e)] (fuel : Nat) :
    Traced n → List (Event n) → Option (Traced n)
  | v, [] => some v
  | v, e :: es =>
      if C v e then
        (v.world.exec fuel e).bind fun p => Traced.exec C fuel ⟨p.1, capture v e⟩ es
      else none

theorem World.step_of_exec {fuel : Nat} {w w' : World n} {e : Event n}
    {r : Option (Nat × InterruptFrame)} (h : w.exec fuel e = some (w', r)) : Step w e r w' := by
  cases e with
  | tick c frame =>
      obtain ⟨p, hp, heq⟩ := Option.map_eq_some_iff.mp h
      obtain ⟨rfl, rfl⟩ := Prod.mk.inj heq
      exact .tick hp
  | create t cr3 frame =>
      obtain ⟨hok, heq⟩ := Option.ite_none_right_eq_some.mp h
      obtain ⟨rfl, rfl⟩ := Prod.mk.inj (Option.some.inj heq)
      exact .create hok.1 hok.2
  | die c =>
      obtain ⟨hok, heq⟩ := Option.ite_none_right_eq_some.mp h
      obtain ⟨rfl, rfl⟩ := Prod.mk.inj (Option.some.inj heq)
      exact .die hok

theorem Traced.runsTo_of_exec {C : Traced n → Event n → Prop} [∀ v e, Decidable (C v e)]
    {fuel : Nat} {u v v' : Traced n} {es : List (Event n)} (hu : RunsTo C u v)
    (h : v.exec C fuel es = some v') : RunsTo C u v' := by
  induction es generalizing v with
  | nil =>
      cases h
      exact hu
  | cons e es ih =>
      obtain ⟨hc, hrest⟩ := Option.ite_none_right_eq_some.mp h
      obtain ⟨p, hp, hnext⟩ := Option.bind_eq_some_iff.mp hrest
      exact ih (.tail hu hc (World.step_of_exec hp)) hnext

def traceBoot (order : List (Fin n × Nat)) : Traced n :=
  { world := boot order, captured := fun _ => none }

/-! ### Frames kept apart survive -/

/-- Every thread that waits still finds the frame it was captured with. -/
structure FramesKept (v : Traced n) : Prop where
  kept : ∀ t g, (v.world.sched.thread t).enqueued = true →
    (v.world.sched.thread t).running = false → v.captured t = some g →
    (∃ d, (v.world.sched.thread t).state = .ist d) ∧
      v.world.sched.frames (v.world.sched.thread t).state = g
  created : ∀ t g, v.captured t = some g → t ∈ v.world.created

def TraceInv (v : Traced n) : Prop := SchedInv v.world ∧ FramesKept v

/-- A thread that does not run is not the one captured. -/
theorem capture_waiting {v : Traced n} {t : Nat} (c : Fin n) (frame : InterruptFrame)
    (h : (v.world.sched.thread t).running = false) :
    capture v (.tick c frame) t = v.captured t := by
  simp only [capture]
  split
  · rename_i hrun
    refine Function.update_of_ne ?_ _ _
    rintro rfl
    rw [h] at hrun
    cases hrun
  · rfl

/-- With the slot free, a thread that waits and is not captured at this tick
keeps its frame, wherever the tick leaves it. -/
theorem FramesKept.tick_waiting {v : Traced n} {c : Fin n} {frame : InterruptFrame}
    {s' : Sched n} {t : Nat} {g : InterruptFrame} (hv : FramesKept v)
    (hc : SlotFree v (.tick c frame))
    (hframes : s'.frames = Function.update v.world.sched.frames (.ist c) frame)
    (hstate : (s'.thread t).state = (v.world.sched.thread t).state)
    (henq : (v.world.sched.thread t).enqueued = true)
    (hrun : (v.world.sched.thread t).running = false) (hg : v.captured t = some g) :
    (∃ d, (s'.thread t).state = .ist d) ∧ s'.frames (s'.thread t).state = g := by
  rw [hframes, hstate, Function.update_of_ne (hc t (hv.created t g hg) henq hrun)]
  exact hv.kept t g henq hrun hg

theorem framesKept_tick {v : Traced n} {c : Fin n} {frame : InterruptFrame} {s' : Sched n}
    (hw : SchedInv v.world) (hv : FramesKept v) (hc : SlotFree v (.tick c frame))
    (hs : Stays v.world.sched c frame s' ∨ ∃ t, Switches v.world.sched c frame t s') :
    FramesKept { world := { v.world with sched := s' }, captured := capture v (.tick c frame) } := by
  have hstate : ∀ x, (s'.thread x).state = if x = v.world.sched.current c ∧
      (v.world.sched.thread x).running then .ist c else (v.world.sched.thread x).state := by
    rcases hs with hs | ⟨t, hs⟩ <;> exact hs.state
  have hframes : s'.frames = Function.update v.world.sched.frames (.ist c) frame := by
    rcases hs with hs | ⟨t, hs⟩ <;> exact hs.frames
  have henqueued : ∀ x, (s'.thread x).enqueued = (v.world.sched.thread x).enqueued := by
    rcases hs with hs | ⟨t, hs⟩ <;> exact hs.shape.enqueued
  refine ⟨?_, ?_⟩
  · intro t g henq hrun hg
    simp only [henqueued] at henq
    by_cases hwas : (v.world.sched.thread t).running = true
    · -- Only the thread the tick switched away from stops running.
      have hcur : t = v.world.sched.current c := by
        by_contra hne
        rcases hs with hs | ⟨u, hs⟩
        · rw [hs.running, hwas] at hrun
          cases hrun
        · rw [hs.running, if_neg hne, hwas, ite_self] at hrun
          cases hrun
      have hcapt : capture v (.tick c frame) t = some frame := by
        rw [hcur] at hwas ⊢
        simp only [capture, if_pos hwas, Function.update_self]
      have hgf : frame = g := Option.some.inj (hcapt.symm.trans hg)
      rw [hstate, if_pos ⟨hcur, hwas⟩, hframes]
      exact ⟨⟨c, rfl⟩, by rw [Function.update_self, hgf]⟩
    · rw [Bool.not_eq_true] at hwas
      refine hv.tick_waiting hc hframes ?_ henq hwas ((capture_waiting c frame hwas).symm.trans hg)
      rw [hstate, if_neg]
      rintro ⟨_, h⟩
      rw [hwas] at h
      cases h
  · intro t g hg
    simp only [capture] at hg
    split at hg
    · by_cases ht : t = v.world.sched.current c
      · obtain ⟨xs, hr, hx⟩ := hw
        rw [ht]
        exact hr.created _ (hx.currentOn c)
      · rw [Function.update_of_ne ht] at hg
        exact hv.created t g hg
    · exact hv.created t g hg

theorem framesKept_create {v : Traced n} {t cr3 : Nat} {frame : InterruptFrame}
    (hw : SchedInv v.world) (hv : FramesKept v) (hnew : t ∉ v.world.created) :
    FramesKept ⟨⟨createThread v.world.sched t cr3 frame, t :: v.world.created, v.world.dead⟩,
      v.captured⟩ := by
  obtain ⟨xs, hr, hx⟩ := hw
  have hs := createThread_spec (t := t) cr3 frame hr.ends_ne_zero.1 hr.ends_ne_zero.2
  refine ⟨?_, fun x g hg => List.mem_cons_of_mem t (hv.created x g hg)⟩
  intro x g henq hrun hg
  have hxt : x ≠ t := fun h => hnew (h ▸ hv.created x g hg)
  simp only [hs.enqueued, hs.running, if_neg hxt] at henq hrun
  obtain ⟨⟨d, hd⟩, hf⟩ := hv.kept x g henq hrun hg
  rw [hs.state, if_neg hxt, hs.frames, hd, Function.update_of_ne (by simp)]
  exact ⟨⟨d, rfl⟩, by rw [← hd]; exact hf⟩

theorem framesKept_die {v : Traced n} {c : Fin n} (hw : SchedInv v.world) (hv : FramesKept v) :
    FramesKept ⟨⟨dequeueAndDie v.world.sched c, v.world.created,
      v.world.sched.current c :: v.world.dead⟩, v.captured⟩ := by
  obtain ⟨xs, hr, hx⟩ := hw
  have hs := dequeueAndDie_spec (hr.enqueued _ (hx.currentOn c))
  refine ⟨?_, hv.created⟩
  intro x g henq hrun hg
  have hxc : x ≠ v.world.sched.current c := by
    intro h
    rw [hs.enqueued, if_pos h] at henq
    cases henq
  simp only [hs.enqueued, hs.running, if_neg hxc] at henq hrun
  rw [hs.state, hs.frames]
  exact hv.kept x g henq hrun hg

theorem traceInv_step {v : Traced n} {e : Event n} {r : Option (Nat × InterruptFrame)}
    {w' : World n} (hv : TraceInv v) (hc : SlotFree v e) (hs : Step v.world e r w') :
    TraceInv { world := w', captured := capture v e } := by
  refine ⟨schedInv_step hv.1 hs, ?_⟩
  cases hs with
  | tick h =>
      obtain ⟨xs, hr, hx⟩ := hv.1
      refine framesKept_tick hv.1 hv.2 hc ?_
      exact (schedTick_spec (fun y hy => hr.next_mem hy) (hx.currentOn _) h).imp And.right
        fun ⟨t, _, hsw, _⟩ => ⟨t, hsw⟩
  | create _ hnew => exact framesKept_create hv.1 hv.2 hnew
  | die _ => exact framesKept_die hv.1 hv.2

/-- With the slot free, the thread resumed gets back what was captured. -/
theorem TraceInv.restores {v : Traced n} {e : Event n} {r : Option (Nat × InterruptFrame)}
    {w' : World n} (hv : TraceInv v) (hc : SlotFree v e) (hs : Step v.world e r w') :
    Restores v r := by
  intro t f hr g hg
  cases hs with
  | tick h =>
      obtain ⟨xs, hring, hx⟩ := hv.1
      rcases schedTick_spec (fun y hy => hring.next_mem hy) (hx.currentOn _) h with
        ⟨hnone, _⟩ | ⟨u, hu, hsw, hsome⟩
      · rw [hnone] at hr
        cases hr
      · obtain ⟨rfl, rfl⟩ := Prod.mk.inj (Option.some.inj (hsome.symm.trans hr))
        refine (hv.2.tick_waiting hc hsw.frames ?_ (hring.enqueued u hu) hsw.free.2.1 hg).2
        rw [hsw.state, if_neg fun h => hsw.chosen.2 h.1]
  | create => cases hr
  | die => cases hr

theorem traceInv_run {order : List (Fin n × Nat)} (ho : BootOrder order) {v : Traced n}
    (hv : RunsTo SlotFree (traceBoot order) v) : TraceInv v := by
  induction hv with
  | refl => exact ⟨schedInv_boot ho, fun t g _ _ h => (by cases h), fun t g h => (by cases h)⟩
  | tail _ hc hs ih => exact traceInv_step ih hc hs

/-- While every CPU is interrupted only when no waiting thread has its frame in
that CPU's slot, each thread resumed gets back the frame last captured. -/
theorem resumed_frame_is_captured {order : List (Fin n × Nat)} (ho : BootOrder order)
    {v : Traced n} (hv : RunsTo SlotFree (traceBoot order) v) {e : Event n}
    {r : Option (Nat × InterruptFrame)} {w' : World n} (hc : SlotFree v e)
    (hs : Step v.world e r w') : Restores v r :=
  (traceInv_run ho hv).restores hc hs

end Runs

/-- Two CPUs: the thread preempted on CPU 0 is taken up by CPU 1 with its own frame. -/
theorem migrated_thread_keeps_frame : ∃ (v : Traced 2) (w' : World 2) (f : InterruptFrame),
    RunsTo SlotFree (traceBoot [(0, 10), (1, 11)]) v ∧
    Step v.world (.tick 1 {}) (some (20, f)) w' ∧ v.captured 20 = some { rip := 7 } ∧
    f = { rip := 7 } := by
  let es : List (Event 2) :=
    [.create 20 0 {}, .create 21 0 {}, .tick 0 {}, .tick 0 { rip := 7 }]
  let v? := (traceBoot [((0 : Fin 2), 10), (1, 11)]).exec SlotFree 5 es
  obtain ⟨v, hv⟩ : ∃ v, v? = some v := Option.isSome_iff_exists.mp (by decide +kernel)
  have hrun := Traced.runsTo_of_exec (RunsTo.refl (C := SlotFree)) hv
  have hcapt : v?.map (fun v => v.captured 20) = some (some { rip := 7 }) := by decide +kernel
  have hfree : v?.all (fun v => decide (SlotFree v (.tick 1 {}))) = true := by decide +kernel
  have hnext : (v?.bind fun v => v.world.exec 5 (.tick 1 {})).map
      (fun p => p.2.map Prod.fst) = some (some 20) := by decide +kernel
  rw [hv] at hcapt hfree hnext
  rw [Option.bind_some] at hnext
  obtain ⟨⟨w', r⟩, hstep, hr⟩ := Option.map_eq_some_iff.mp hnext
  obtain ⟨⟨t, f⟩, rfl, rfl⟩ := Option.map_eq_some_iff.mp hr
  have hs : Step v.world (.tick 1 {}) (some (20, f)) w' := World.step_of_exec hstep
  have hg : v.captured 20 = some { rip := 7 } := Option.some.inj hcapt
  refine ⟨v, w', f, hrun, hs, hg, ?_⟩
  exact resumed_frame_is_captured ⟨by decide +kernel, by decide, by decide, by decide, by decide⟩ hrun
    (of_decide_eq_true hfree) hs 20 f rfl _ hg

/-- One CPU and two threads: the second preemption overwrites the first
thread's frame, which is then resumed with the registers of the second. -/
theorem second_preemption_overwrites_frame : ∃ (v : Traced 1) (w' : World 1) (f : InterruptFrame),
    RunsTo (fun _ _ => True) (traceBoot [(0, 10)]) v ∧
    Step v.world (.tick 0 { rip := 9 }) (some (20, f)) w' ∧
    v.captured 20 = some { rip := 7 } ∧ f = { rip := 9 } ∧ ¬ Restores v (some (20, f)) := by
  let es : List (Event 1) :=
    [.create 20 0 {}, .create 21 0 {}, .tick 0 {}, .tick 0 { rip := 7 }]
  let v? := (traceBoot [((0 : Fin 1), 10)]).exec (fun _ _ => True) 5 es
  obtain ⟨v, hv⟩ : ∃ v, v? = some v := Option.isSome_iff_exists.mp (by decide +kernel)
  have hrun := Traced.runsTo_of_exec (RunsTo.refl (C := fun _ _ => True)) hv
  have hcapt : v?.map (fun v => v.captured 20) = some (some { rip := 7 }) := by decide +kernel
  have hnext : (v?.bind fun v => v.world.exec 5 (.tick 0 { rip := 9 })).map Prod.snd =
      some (some (20, { rip := 9 })) := by decide +kernel
  rw [hv] at hcapt hnext
  rw [Option.bind_some] at hnext
  obtain ⟨⟨w', r⟩, hstep, rfl⟩ := Option.map_eq_some_iff.mp hnext
  have hg : v.captured 20 = some { rip := 7 } := Option.some.inj hcapt
  refine ⟨v, w', { rip := 9 }, hrun, World.step_of_exec hstep, hg, rfl, ?_⟩
  intro hrestores
  exact absurd (hrestores 20 _ rfl _ hg) (by decide)

end Flan.Proc
