import Mathlib.Data.Fintype.Card
import Flan.Memory.Gdt
import Flan.Proc.Exclusion
import Flan.Proc.QueueLocked

/-! The CPUs of `sys/smp.c` on their way through `core_init`, in any order of steps: each loads its
task register, makes its idle thread and enqueues it, and counts itself in `cpus_running`, which is
read and written without a lock. `smp_init` waits for that count. -/
namespace Flan.Sys
open Flan.Lib Flan.Memory Flan.Proc

/-! ### The source -/

/-- What a CPU does next in `core_init`. -/
inductive Stage where
  | tss
  | idle
  | check
  | enqueue
  | mark
  | load
  | store (cpusRunning : Nat)
  | done
deriving DecidableEq

/-- The task state segments and the idle threads of the CPUs. -/
structure SmpInfo (n : Nat) where
  tss : Fin n → BitVec 64
  idle : Enqueuers (Fin n)

/-- The records of threads are kept apart from their links, which `queue.lock` guards. -/
structure Smp (n : Nat) where
  gdt : Guard.Once (Fin n) (Gdt n) Nat (Fin n × BitVec 64) (List (GdtOp n)) Unit Nat
  queue : Enqueuing (Fin n)
  rest : Nat → Thread
  cpus : Fin n → CpuLocal
  cpusRunning : Nat
  stage : Fin n → Stage

section Source
variable {n : Nat} (info : SmpInfo n)

def Smp.to (s : Smp n) (i : Fin n) (stage : Stage) : Smp n := { s with stage := Function.update s.stage i stage }

/-- `core_init` on a CPU, one step on. -/
def coreStep (s : Smp n) (i : Fin n) : Smp n :=
  let t := info.idle.thread i
  match s.stage i with
  | .tss =>
      let s := { s with gdt := (spinlocked (gdtBody n)).onceStep (fun i => (i, info.tss i)) s.gdt i }
      if s.gdt.due i = .after then s.to i .idle else s
  | .idle =>
      { s with
        rest := Function.update s.rest t { blocked := true }
        cpus := Function.update s.cpus i { s.cpus i with idleThread := t, currentThread := t } }.to i .check
  | .check => if (s.rest t).enqueued then s.to i .load else s.to i .enqueue
  | .enqueue =>
      let s := { s with queue := enqueueStep info.idle s.queue i }
      if s.queue.due i = .after then s.to i .mark else s
  | .mark => { s with rest := Function.update s.rest t { s.rest t with enqueued := true } }.to i .load
  | .load => s.to i (.store s.cpusRunning)
  | .store v => { s with cpusRunning := v + 1 }.to i .done
  | .done => s

def smpStart : Smp n where
  gdt := (spinlocked (gdtBody n)).onceStart ⟨gdtInit, fun _ => none, []⟩
  queue := enqueueStart
  rest := fun _ => {}
  cpus := fun _ => {}
  cpusRunning := 0
  stage := fun _ => .tss

/-- The loop of `smp_init` is at `index`, and the CPUs before that have been started. -/
structure SmpInit (n : Nat) where
  smp : Smp n
  index : Nat
  returned : Bool

/-- A step of a CPU. The CPU `bsp` has called `smp_init`: it starts the others, goes through `core_init` itself
when the loop comes to its own entry, and waits for the count in the end. -/
def smpInitStep (bsp : Fin n) (s : SmpInit n) (i : Fin n) : SmpInit n :=
  if i = bsp then
    if s.index = bsp.val then
      let smp := coreStep info s.smp i
      ⟨smp, if smp.stage i = .done then s.index + 1 else s.index, s.returned⟩
    else if s.index < n then ⟨s.smp, s.index + 1, s.returned⟩
    else ⟨s.smp, s.index, s.returned || s.smp.cpusRunning == n⟩
  else if i.val < s.index then ⟨coreStep info s.smp i, s.index, s.returned⟩
  else s

def smpInitRun (bsp : Fin n) (schedule : List (Fin n)) : SmpInit n :=
  schedule.foldl (smpInitStep info bsp) ⟨smpStart, 0, false⟩

/-- The scheduler's state. -/
def Smp.sched (s : Smp n) : Sched n := ⟨s.queue.locked.shared.queue s.rest, fun _ => {}, s.cpus⟩

end Source

/-! ### The boot in one step a CPU -/

section Boot
variable {n : Nat}

/-- A CPU's part of the boot, on a thread that has no links yet. -/
theorem coreInit_links {l : Links} {rest : Nat → Thread} {frames : FrameRef → InterruptFrame} {cpus : Fin n → CpuLocal}
    {c : Fin n} {t : Nat} (hnext : l.next t = 0) (hprev : l.prev t = 0) :
    coreInit ⟨l.queue rest, frames, cpus⟩ c t =
      ⟨(l.link t).queue (Function.update rest t { blocked := true, enqueued := true }), frames,
        Function.update cpus c { cpus c with idleThread := t, currentThread := t }⟩ := by
  have hmodify : (l.queue rest).modify t (fun _ => { blocked := true }) =
      l.queue (Function.update rest t { blocked := true }) := by
    simp only [Links.queue, RunQueue.modify, RunQueue.mk.injEq, and_true]
    funext x
    by_cases hx : x = t
    · subst hx
      simp only [Function.update_self, hnext, hprev]
    · simp only [Function.update_of_ne hx]
  have hfresh : (l.queue (Function.update rest t { blocked := true })).enqueued t = false := by
    simp [RunQueue.enqueued, Links.queue]
  simp only [coreInit, Sched.modify, Sched.modifyCpu, hmodify]
  rw [enqueue_eq hfresh, queue_link]
  simp only [Function.update_self, Function.update_idem]

/-- The records of the threads that have been enqueued, and those of their CPUs. -/
def restAfter (log : List (Fin n × Nat × Unit)) (rest : Nat → Thread) : Nat → Thread :=
  log.foldl (fun rest e => Function.update rest e.2.1 { blocked := true, enqueued := true }) rest

def cpusAfter (log : List (Fin n × Nat × Unit)) (cpus : Fin n → CpuLocal) : Fin n → CpuLocal :=
  log.foldl (fun cpus e => Function.update cpus e.1 { cpus e.1 with idleThread := e.2.1, currentThread := e.2.1 }) cpus

theorem restAfter_apply (log : List (Fin n × Nat × Unit)) (rest : Nat → Thread) (t : Nat) :
    restAfter log rest t = if t ∈ log.map (fun e => e.2.1) then { blocked := true, enqueued := true } else rest t := by
  induction log generalizing rest with
  | nil => rfl
  | cons e log ih =>
      rw [restAfter, List.foldl_cons]
      refine (ih _).trans ?_
      simp only [List.map_cons, List.mem_cons, Function.update_apply]
      by_cases hlater : t ∈ log.map fun e => e.2.1
      · rw [if_pos hlater, if_pos (.inr hlater)]
      · rw [if_neg hlater]
        simp only [hlater, or_false]

theorem cpusAfter_apply {log : List (Fin n × Nat × Unit)} {idle : Fin n → Nat} (h : ∀ e ∈ log, e.2.1 = idle e.1)
    (cpus : Fin n → CpuLocal) (c : Fin n) : cpusAfter log cpus c =
      if c ∈ log.map Prod.fst then { cpus c with idleThread := idle c, currentThread := idle c } else cpus c := by
  induction log generalizing cpus with
  | nil => rfl
  | cons e log ih =>
      obtain ⟨he, hlog⟩ := List.forall_mem_cons.mp h
      rw [cpusAfter, List.foldl_cons]
      refine (ih hlog _).trans ?_
      simp only [List.map_cons, List.mem_cons]
      by_cases hc : c = e.1
      · subst hc
        simp only [Function.update_self, he, true_or, if_true]
        split <;> rfl
      · simp only [Function.update_of_ne hc, hc, false_or]

/-- The calls that have returned are a boot in their order. -/
theorem coresInit_replays {log : List (Fin n × Nat × Unit)} {l l' : Links} {order : List Nat} (h : Linked l order)
    (hlog : Replays (fun l t l' _ => l' = l.link t) l log l') (hnd : (order ++ log.map fun c => c.2.1).Nodup)
    (hz : 0 ∉ log.map fun c => c.2.1) (rest : Nat → Thread) (frames : FrameRef → InterruptFrame)
    (cpus : Fin n → CpuLocal) :
    coresInit (log.map fun e => (e.1, e.2.1)) ⟨l.queue rest, frames, cpus⟩ =
      ⟨l'.queue (restAfter log rest), frames, cpusAfter log cpus⟩ := by
  induction log generalizing l order rest cpus with
  | nil =>
      obtain rfl : l = l' := hlog
      rfl
  | cons c log ih =>
      obtain ⟨u, rfl, hrest⟩ := hlog
      rw [List.map_cons, ← List.singleton_append, ← List.append_assoc] at hnd
      rw [List.map_cons, List.mem_cons, not_or] at hz
      have hnot : c.2.1 ∉ order := fun hmem =>
        (List.nodup_append.mp (List.nodup_append.mp hnd).1).2.2 _ hmem _ (List.mem_singleton_self _) rfl
      obtain ⟨hnext, hprev⟩ := h.fresh _ hnot
      have hrun := ih (h.link hnot (Ne.symm hz.1)) hrest hnd hz.2
        (Function.update rest c.2.1 { blocked := true, enqueued := true })
        (Function.update cpus c.1 { cpus c.1 with idleThread := c.2.1, currentThread := c.2.1 })
      rw [← coreInit_links hnext hprev] at hrun
      exact hrun

end Boot

/-! ### What holds in every order of steps -/

section Inv
variable {n : Nat} {info : SmpInfo n} {s : Smp n}

/-- What a CPU has made of its idle thread. -/
def Stage.thread : Stage → Thread
  | .tss | .idle => {}
  | .check | .enqueue | .mark => { blocked := true }
  | .load | .store _ | .done => { blocked := true, enqueued := true }

/-- Where it is with the call of `sched_enqueue_thread`. -/
def Stage.Enqueues : Stage → Due → Prop
  | .tss, due | .idle, due | .check, due => due = .before
  | .enqueue, due => due ≠ .after
  | .mark, due | .load, due | .store _, due | .done, due => due = .after

/-- What is true of a CPU at a stage, and of the thread `t` that it makes. -/
structure CpuAt (t : Nat) (stage : Stage) (tss enqueue : Due) (thread : Thread) (cpu : CpuLocal) : Prop where
  tss : tss = .after ↔ stage ≠ .tss
  enqueue : stage.Enqueues enqueue
  thread : thread = stage.thread
  cpu : cpu = if stage = .tss ∨ stage = .idle then {} else { idleThread := t, currentThread := t }

def doneCpus (s : Smp n) : Finset (Fin n) := Finset.univ.filter fun i => s.stage i = .done

structure SmpInv (info : SmpInfo n) (s : Smp n) : Prop where
  gdt : (spinlocked (gdtBody n)).OnceInv (fun i => (i, info.tss i)) (fun _ => True) (fun s c t _ => LoadsTss s c t)
    ⟨gdtInit, fun _ => none, []⟩ s.gdt
  queue : EnqueueInv info.idle s.queue
  cpu : ∀ i, CpuAt (info.idle.thread i) (s.stage i) (s.gdt.due i) (s.queue.due i) (s.rest (info.idle.thread i)) (s.cpus i)
  others : ∀ t, (∀ i, info.idle.thread i ≠ t) → s.rest t = {}
  counted : s.cpusRunning ≤ (doneCpus s).card
  loaded : ∀ i v, s.stage i = .store v → v ≤ (doneCpus s).card

theorem smpInv_start (info : SmpInfo n) : SmpInv info smpStart := by
  refine ⟨Guard.onceInv_start trivial, enqueueInv_start, fun i => ⟨?_, rfl, rfl, rfl⟩, fun _ _ => rfl, Nat.zero_le _, ?_⟩
  · exact ⟨fun h => (by cases h), fun h => absurd rfl h⟩
  · intro i v h
    cases h

/-- The other CPUs' parts are left alone. -/
theorem coreStep_other (info : SmpInfo n) (s : Smp n) {i j : Fin n} (hij : j ≠ i) :
    (coreStep info s i).stage j = s.stage j ∧ (coreStep info s i).gdt.due j = s.gdt.due j ∧
    (coreStep info s i).queue.due j = s.queue.due j ∧
    (coreStep info s i).rest (info.idle.thread j) = s.rest (info.idle.thread j) ∧
    (coreStep info s i).cpus j = s.cpus j := by
  have hthread : info.idle.thread j ≠ info.idle.thread i := fun h => hij (info.idle.distinct h)
  have hgdt : ((spinlocked (gdtBody n)).onceStep (fun i => (i, info.tss i)) s.gdt i).due j = s.gdt.due j :=
    Guard.onceStep_due_of_ne hij
  have hqueue : (enqueueStep info.idle s.queue i).due j = s.queue.due j := Guard.onceStep_due_of_ne hij
  unfold coreStep
  cases s.stage i with
  | tss =>
      dsimp only
      split
      · simp only [Smp.to, Function.update_of_ne hij, hgdt, and_self]
      · simp only [hgdt, and_self]
  | idle => simp only [Smp.to, Function.update_of_ne hij, Function.update_of_ne hthread, and_self]
  | check =>
      dsimp only
      split <;> simp only [Smp.to, Function.update_of_ne hij, and_self]
  | enqueue =>
      dsimp only
      split
      · simp only [Smp.to, Function.update_of_ne hij, hqueue, and_self]
      · simp only [hqueue, and_self]
  | mark => simp only [Smp.to, Function.update_of_ne hij, Function.update_of_ne hthread, and_self]
  | load => simp only [Smp.to, Function.update_of_ne hij, and_self]
  | store v => simp only [Smp.to, Function.update_of_ne hij, and_self]
  | done => simp only [and_self]

theorem coreStep_own (h : SmpInv info s) (i : Fin n) :
    CpuAt (info.idle.thread i) ((coreStep info s i).stage i) ((coreStep info s i).gdt.due i)
      ((coreStep info s i).queue.due i) ((coreStep info s i).rest (info.idle.thread i)) ((coreStep info s i).cpus i) := by
  have hat := h.cpu i
  unfold coreStep
  cases hstage : s.stage i with
  | tss =>
      rw [hstage] at hat
      dsimp only
      split
      · rename_i hafter
        simp only [Smp.to, Function.update_self]
        exact ⟨⟨fun _ hne => (by cases hne), fun _ => hafter⟩, hat.enqueue, hat.thread, hat.cpu⟩
      · rename_i hafter
        dsimp only
        rw [hstage]
        exact ⟨⟨fun h => absurd h hafter, fun h => absurd rfl h⟩, hat.enqueue, hat.thread, hat.cpu⟩
  | idle =>
      rw [hstage] at hat
      simp only [Smp.to, Function.update_self]
      refine ⟨⟨fun _ hne => (by cases hne), fun _ => hat.tss.mpr fun hne => (by cases hne)⟩, hat.enqueue, rfl, ?_⟩
      rw [hat.cpu]
      rfl
  | check =>
      rw [hstage] at hat
      have hfresh : (s.rest (info.idle.thread i)).enqueued = false := by
        rw [hat.thread]
        rfl
      simp only [hfresh, Bool.false_eq_true, if_false, Smp.to, Function.update_self]
      refine ⟨⟨fun _ hne => (by cases hne), fun _ => hat.tss.mpr fun hne => (by cases hne)⟩, ?_, hat.thread, hat.cpu⟩
      rw [show s.queue.due i = .before from hat.enqueue]
      exact fun hne => (by cases hne)
  | enqueue =>
      rw [hstage] at hat
      dsimp only
      split
      · rename_i hafter
        simp only [Smp.to, Function.update_self]
        exact ⟨⟨fun _ hne => (by cases hne), fun _ => hat.tss.mpr fun hne => (by cases hne)⟩, hafter, hat.thread, hat.cpu⟩
      · rename_i hafter
        dsimp only
        rw [hstage]
        exact ⟨hat.tss, hafter, hat.thread, hat.cpu⟩
  | mark =>
      rw [hstage] at hat
      simp only [Smp.to, Function.update_self]
      refine ⟨⟨fun _ hne => (by cases hne), fun _ => hat.tss.mpr fun hne => (by cases hne)⟩, hat.enqueue, ?_, hat.cpu⟩
      rw [hat.thread]
      rfl
  | load =>
      rw [hstage] at hat
      simp only [Smp.to, Function.update_self]
      exact ⟨⟨fun _ hne => (by cases hne), fun _ => hat.tss.mpr fun hne => (by cases hne)⟩, hat.enqueue, hat.thread, hat.cpu⟩
  | store v =>
      rw [hstage] at hat
      simp only [Smp.to, Function.update_self]
      exact ⟨⟨fun _ hne => (by cases hne), fun _ => hat.tss.mpr fun hne => (by cases hne)⟩, hat.enqueue, hat.thread, hat.cpu⟩
  | done =>
      dsimp only
      rw [hstage] at hat ⊢
      exact hat

/-- Who is through stays so. -/
theorem doneCpus_subset (info : SmpInfo n) (s : Smp n) (i : Fin n) : doneCpus s ⊆ doneCpus (coreStep info s i) := by
  intro j hj
  simp only [doneCpus, Finset.mem_filter, Finset.mem_univ, true_and] at hj ⊢
  by_cases hji : j = i
  · subst hji
    simp only [coreStep, hj]
  · rw [(coreStep_other info s hji).1, hj]

theorem done_stays (s : Smp n) {i j : Fin n} (h : s.stage j = .done) : (coreStep info s i).stage j = .done := by
  have hmem := doneCpus_subset info s i (Finset.mem_filter.mpr ⟨Finset.mem_univ j, h⟩)
  exact (Finset.mem_filter.mp hmem).2

theorem doneCpus_store {i : Fin n} {v : Nat} (h : s.stage i = .store v) :
    (doneCpus (coreStep info s i)).card = (doneCpus s).card + 1 := by
  have hins : doneCpus (coreStep info s i) = insert i (doneCpus s) := by
    ext j
    simp only [doneCpus, Finset.mem_filter, Finset.mem_univ, true_and, Finset.mem_insert]
    by_cases hji : j = i
    · subst hji
      simp only [coreStep, h, Smp.to, Function.update_self, true_or]
    · rw [(coreStep_other info s hji).1]
      simp only [hji, false_or]
  have hnot : i ∉ doneCpus s := by
    simp [doneCpus, h]
  rw [hins, Finset.card_insert_of_notMem hnot]

/-- The count is written only by a CPU that has read it, and only when it is through. -/
theorem coreStep_count (info : SmpInfo n) (s : Smp n) (i : Fin n) :
    ((coreStep info s i).cpusRunning = s.cpusRunning ∨ ∃ v, s.stage i = .store v ∧ (coreStep info s i).cpusRunning = v + 1) ∧
    ∀ v, (coreStep info s i).stage i = .store v → s.stage i = .load ∧ v = s.cpusRunning := by
  unfold coreStep
  cases hstage : s.stage i with
  | tss =>
      dsimp only
      split
      · simp [Smp.to]
      · simp [hstage]
  | idle => simp [Smp.to]
  | check =>
      dsimp only
      split <;> simp [Smp.to]
  | enqueue =>
      dsimp only
      split
      · simp [Smp.to]
      · simp [hstage]
  | mark => simp [Smp.to]
  | load => simp [Smp.to, eq_comm]
  | store v => simp [Smp.to]
  | done => simp [hstage]

theorem coreStep_gdt (info : SmpInfo n) (s : Smp n) (i : Fin n) : (coreStep info s i).gdt = s.gdt ∨
    (coreStep info s i).gdt = (spinlocked (gdtBody n)).onceStep (fun i => (i, info.tss i)) s.gdt i := by
  unfold coreStep
  cases s.stage i with
  | tss =>
      dsimp only
      split <;> exact .inr rfl
  | check =>
      dsimp only
      split <;> exact .inl rfl
  | enqueue =>
      dsimp only
      split <;> exact .inl rfl
  | _ => exact .inl rfl

theorem coreStep_queue (info : SmpInfo n) (s : Smp n) (i : Fin n) : (coreStep info s i).queue = s.queue ∨
    (coreStep info s i).queue = enqueueStep info.idle s.queue i := by
  unfold coreStep
  cases s.stage i with
  | tss =>
      dsimp only
      split <;> exact .inl rfl
  | check =>
      dsimp only
      split <;> exact .inl rfl
  | enqueue =>
      dsimp only
      split <;> exact .inr rfl
  | _ => exact .inl rfl

theorem coreStep_rest (s : Smp n) (i : Fin n) {t : Nat} (ht : info.idle.thread i ≠ t) :
    (coreStep info s i).rest t = s.rest t := by
  unfold coreStep
  cases s.stage i with
  | tss =>
      dsimp only
      split <;> rfl
  | check =>
      dsimp only
      split <;> rfl
  | enqueue =>
      dsimp only
      split <;> rfl
  | idle => exact Function.update_of_ne ht.symm ..
  | mark => exact Function.update_of_ne ht.symm ..
  | _ => rfl

theorem SmpInv.step (h : SmpInv info s) (i : Fin n) : SmpInv info (coreStep info s i) := by
  have hmono := Finset.card_le_card (doneCpus_subset info s i)
  obtain ⟨hcount, hload⟩ := coreStep_count info s i
  refine ⟨?_, ?_, fun j => ?_, fun t ht => ?_, ?_, fun j v hj => ?_⟩
  · rcases coreStep_gdt info s i with heq | heq
    · rw [heq]
      exact h.gdt
    · rw [heq]
      exact h.gdt.step gdtBody_computes (spinlocked_again _) (fun _ => rfl) i
  · rcases coreStep_queue info s i with heq | heq
    · rw [heq]
      exact h.queue
    · rw [heq]
      exact h.queue.step i
  · by_cases hji : j = i
    · rw [hji]
      exact coreStep_own h i
    · obtain ⟨hstage, hgdt, hqueue, hrest, hcpus⟩ := coreStep_other info s hji
      rw [hstage, hgdt, hqueue, hrest, hcpus]
      exact h.cpu j
  · rw [coreStep_rest s i (ht i)]
    exact h.others t ht
  · rcases hcount with heq | ⟨v, hv, heq⟩
    · rw [heq]
      exact h.counted.trans hmono
    · rw [heq, doneCpus_store hv]
      exact Nat.succ_le_succ (h.loaded i v hv)
  · by_cases hji : j = i
    · subst hji
      rw [(hload v hj).2]
      exact h.counted.trans hmono
    · rw [(coreStep_other info s hji).1] at hj
      exact (h.loaded j v hj).trans hmono

/-- The count that `smp_init` waits for is reached only by all CPUs. -/
theorem SmpInv.all_done (h : SmpInv info s) (hcount : s.cpusRunning = n) (i : Fin n) : s.stage i = .done := by
  have hcard : (doneCpus s).card = Fintype.card (Fin n) := by
    refine le_antisymm (Finset.card_le_univ _) ?_
    rw [Fintype.card_fin]
    exact hcount.ge.trans h.counted
  have hmem := Finset.eq_univ_of_card _ hcard ▸ Finset.mem_univ i
  exact (Finset.mem_filter.mp hmem).2

theorem SmpInv.enqueued (h : SmpInv info s) (hdone : ∀ i, s.stage i = .done) (i : Fin n) :
    s.queue.locked.phase i = .idle ∧ i ∈ s.queue.locked.log.map Prod.fst := by
  have hdue : s.queue.due i = .after := by
    have := (h.cpu i).enqueue
    rw [hdone i] at this
    exact this
  have hfits := h.queue.one.fits i
  rw [hdue] at hfits
  exact hfits

/-- The state of the scheduler is that of a boot in the order in which the idle threads were linked. -/
theorem SmpInv.sched_eq (h : SmpInv info s) (hdone : ∀ i, s.stage i = .done) :
    s.sched = coresInit (s.queue.locked.log.map fun e => (e.1, e.2.1)) blank := by
  obtain ⟨hnd, hz⟩ := threads_nodup h.queue.one
  obtain ⟨l, hlog, hshared⟩ := h.queue.inv.replays
  have hfree : s.queue.locked.shared = l := by
    refine hshared fun i hi => ?_
    rw [(h.enqueued hdone i).1] at hi
    exact hi
  have hboot := coresInit_replays linked_empty hlog hnd hz (fun _ => {}) (fun _ => {}) (fun _ => {})
  have hrest : restAfter s.queue.locked.log (fun _ => {}) = s.rest := by
    funext t
    rw [restAfter_apply]
    split
    · rename_i ht
      obtain ⟨e, he, rfl⟩ := List.mem_map.mp ht
      rw [h.queue.one.calls e he, (h.cpu e.1).thread, hdone]
      rfl
    · rename_i ht
      refine (h.others t fun i hi => ht ?_).symm
      obtain ⟨e, he, rfl⟩ := List.mem_map.mp (h.enqueued hdone i).2
      exact List.mem_map.mpr ⟨e, he, (h.queue.one.calls e he).trans hi⟩
  have hcpus : cpusAfter s.queue.locked.log (fun _ => {}) = s.cpus := by
    funext c
    rw [cpusAfter_apply h.queue.one.calls, if_pos (h.enqueued hdone c).2, (h.cpu c).cpu, hdone]
    rfl
  rw [hrest, hcpus, ← hfree] at hboot
  exact hboot.symm

/-- Each CPU's task register has its own segment. -/
theorem SmpInv.tr_eq (h : SmpInv info s) (hdone : ∀ i, s.stage i = .done) (i : Fin n) :
    s.gdt.locked.shared.tr i = some ⟨info.tss i, 104⟩ := by
  have hidle : ∀ j, s.gdt.locked.phase j = .idle ∧ j ∈ s.gdt.locked.log.map Prod.fst := by
    intro j
    have hdue : s.gdt.due j = .after := by
      rw [(h.cpu j).tss, hdone j]
      exact fun hne => by cases hne
    have hfits := h.gdt.one.fits j
    rw [hdue] at hfits
    exact hfits
  obtain ⟨t, hlog, hshared⟩ := h.gdt.inv.replays
  have hfree : s.gdt.locked.shared = t := by
    refine hshared fun j hj => ?_
    rw [(hidle j).1] at hj
    exact hj
  rw [hfree, (replays_loadsTss hlog).2.2 i]
  exact lastTss_own h.gdt.one.calls (hidle i).2 _

/-- The order in which the CPUs have enqueued their idle threads. -/
def Smp.order (s : Smp n) : List (Fin n × Nat) := s.queue.locked.log.map fun e => (e.1, e.2.1)

theorem SmpInv.bootOrder (h : SmpInv info s) (hdone : ∀ i, s.stage i = .done) (c : Fin n) : BootOrder s.order := by
  obtain ⟨hnd, hz⟩ := threads_nodup h.queue.one
  refine ⟨?_, ?_, ?_, ?_, ?_⟩
  · intro hnil
    have hmem := (h.enqueued hdone c).2
    rw [List.map_eq_nil_iff.mp hnil] at hmem
    cases hmem
  · intro c
    rw [Smp.order, List.map_map]
    exact (h.enqueued hdone c).2
  · rw [Smp.order, List.map_map]
    exact h.queue.one.once
  · rw [Smp.order, List.map_map]
    exact hnd
  · rw [Smp.order, List.map_map]
    exact hz

end Inv

/-! ### `smp_init` -/

section Init
variable {n : Nat} {info : SmpInfo n} {bsp : Fin n} {s : SmpInit n} {i : Fin n}

theorem smpInitRun_append (schedule more : List (Fin n)) : smpInitRun info bsp (schedule ++ more) =
    more.foldl (smpInitStep info bsp) (smpInitRun info bsp schedule) :=
  List.foldl_append ..

/-- The step of `smp_init` on its own entry. -/
theorem smpInitStep_own (hindex : s.index = bsp.val) : smpInitStep info bsp s bsp = ⟨coreStep info s.smp bsp,
    if (coreStep info s.smp bsp).stage bsp = .done then s.index + 1 else s.index, s.returned⟩ := by
  simp only [smpInitStep, if_true, hindex]

/-- The step that starts another CPU. -/
theorem smpInitStep_start (hindex : s.index ≠ bsp.val) (hlt : s.index < n) :
    smpInitStep info bsp s bsp = ⟨s.smp, s.index + 1, s.returned⟩ := by
  simp only [smpInitStep, if_true, if_neg hindex, if_pos hlt]

/-- The step of the loop that waits. -/
theorem smpInitStep_wait (hge : n ≤ s.index) :
    smpInitStep info bsp s bsp = ⟨s.smp, s.index, s.returned || s.smp.cpusRunning == n⟩ := by
  have hindex : s.index ≠ bsp.val := (bsp.isLt.trans_le hge).ne'
  simp only [smpInitStep, if_true, if_neg hindex, if_neg hge.not_gt]

theorem smpInitStep_started (hi : i ≠ bsp) (hlt : i.val < s.index) :
    smpInitStep info bsp s i = ⟨coreStep info s.smp i, s.index, s.returned⟩ := by
  simp only [smpInitStep, if_neg hi, if_pos hlt]

theorem smpInitStep_parked (hi : i ≠ bsp) (hge : s.index ≤ i.val) : smpInitStep info bsp s i = s := by
  simp only [smpInitStep, if_neg hi, if_neg hge.not_gt]

/-- What a step of a CPU can be. -/
theorem smpInitStep_cases (bsp : Fin n) (s : SmpInit n) (i : Fin n) :
    (i = bsp ∧ s.index = bsp.val) ∨ (i = bsp ∧ s.index ≠ bsp.val ∧ s.index < n) ∨ (i = bsp ∧ n ≤ s.index) ∨
    (i ≠ bsp ∧ i.val < s.index) ∨ (i ≠ bsp ∧ s.index ≤ i.val) := by
  by_cases hi : i = bsp
  · by_cases hindex : s.index = bsp.val
    · exact .inl ⟨hi, hindex⟩
    · rcases Nat.lt_or_ge s.index n with hlt | hge
      · exact .inr (.inl ⟨hi, hindex, hlt⟩)
      · exact .inr (.inr (.inl ⟨hi, hge⟩))
  · rcases Nat.lt_or_ge i.val s.index with hlt | hge
    · exact .inr (.inr (.inr (.inl ⟨hi, hlt⟩)))
    · exact .inr (.inr (.inr (.inr ⟨hi, hge⟩)))

/-- The CPUs make a step of `core_init`, or none. -/
theorem smpInitStep_smp (info : SmpInfo n) (bsp : Fin n) (s : SmpInit n) (i : Fin n) :
    (smpInitStep info bsp s i).smp = s.smp ∨ (smpInitStep info bsp s i).smp = coreStep info s.smp i := by
  rcases smpInitStep_cases bsp s i with ⟨rfl, hindex⟩ | ⟨rfl, hindex, hlt⟩ | ⟨rfl, hge⟩ | ⟨hi, hlt⟩ | ⟨hi, hge⟩
  · rw [smpInitStep_own hindex]
    exact .inr rfl
  · rw [smpInitStep_start hindex hlt]
    exact .inl rfl
  · rw [smpInitStep_wait hge]
    exact .inl rfl
  · rw [smpInitStep_started hi hlt]
    exact .inr rfl
  · rw [smpInitStep_parked hi hge]
    exact .inl rfl

theorem smpInitStep_done {s : SmpInit n} (h : ∀ i, s.smp.stage i = .done) (i : Fin n) :
    (smpInitStep info bsp s i).smp = s.smp := by
  refine (smpInitStep_smp info bsp s i).elim id fun hstep => hstep.trans ?_
  simp only [coreStep, h i]

/-- What holds of the CPUs at the start and after each step of theirs holds throughout. -/
theorem smpInitRun_induct {P : Smp n → Prop} (hstart : P smpStart) (hstep : ∀ s i, P s → P (coreStep info s i))
    (bsp : Fin n) (schedule : List (Fin n)) : P (smpInitRun info bsp schedule).smp := by
  induction schedule using List.reverseRecOn with
  | nil => exact hstart
  | append_singleton schedule i ih =>
      rw [smpInitRun_append]
      rcases smpInitStep_smp info bsp (smpInitRun info bsp schedule) i with hsame | hcore
      · exact hsame.symm ▸ ih
      · exact hcore.symm ▸ hstep _ i ih

theorem smpInv_run (info : SmpInfo n) (bsp : Fin n) (schedule : List (Fin n)) :
    SmpInv info (smpInitRun info bsp schedule).smp :=
  smpInitRun_induct (smpInv_start info) (fun _ i h => h.step i) bsp schedule

/-- It has returned with the count it waits for, which stays. -/
theorem returned_count (info : SmpInfo n) (bsp : Fin n) (schedule : List (Fin n)) :
    (smpInitRun info bsp schedule).returned = true → (smpInitRun info bsp schedule).smp.cpusRunning = n := by
  induction schedule using List.reverseRecOn with
  | nil => exact fun h => by cases h
  | append_singleton schedule i ih =>
      rw [smpInitRun_append]
      simp only [List.foldl_cons, List.foldl_nil]
      have hinv := smpInv_run info bsp schedule
      generalize smpInitRun info bsp schedule = s at ih hinv ⊢
      have hbefore : s.returned = true → (smpInitStep info bsp s i).smp.cpusRunning = n := by
        intro hr
        rw [smpInitStep_done (hinv.all_done (ih hr)) i]
        exact ih hr
      rcases smpInitStep_cases bsp s i with ⟨rfl, hindex⟩ | ⟨rfl, hindex, hlt⟩ | ⟨rfl, hge⟩ | ⟨hi, hlt⟩ | ⟨hi, hge⟩
      · rw [smpInitStep_own hindex] at hbefore ⊢
        exact hbefore
      · rw [smpInitStep_start hindex hlt] at hbefore ⊢
        exact hbefore
      · rw [smpInitStep_wait hge] at hbefore ⊢
        exact fun hr => (Bool.or_eq_true_iff.mp hr).elim hbefore beq_iff_eq.mp
      · rw [smpInitStep_started hi hlt] at hbefore ⊢
        exact hbefore
      · rw [smpInitStep_parked hi hge] at hbefore ⊢
        exact hbefore

/-- `smp_init` returns only when every CPU is through `core_init`: from then on each has its own task state
segment, and the scheduler is in the state that the CPUs bring about one after the other, in the
order in which they have enqueued their idle threads. -/
theorem smp_init_waits_for_boot (info : SmpInfo n) (bsp : Fin n) (schedule : List (Fin n))
    (hreturned : (smpInitRun info bsp schedule).returned = true) :
    (∀ i, (smpInitRun info bsp schedule).smp.stage i = .done) ∧
    (∀ i, (smpInitRun info bsp schedule).smp.gdt.locked.shared.tr i = some ⟨info.tss i, 104⟩) ∧
    BootOrder (smpInitRun info bsp schedule).smp.order ∧
    (∀ p ∈ (smpInitRun info bsp schedule).smp.order, p.2 = info.idle.thread p.1) ∧
    (smpInitRun info bsp schedule).smp.sched = coresInit (smpInitRun info bsp schedule).smp.order blank := by
  have h := smpInv_run info bsp schedule
  have hdone := h.all_done (returned_count info bsp schedule hreturned)
  generalize (smpInitRun info bsp schedule).smp = s at h hdone ⊢
  refine ⟨hdone, h.tr_eq hdone, h.bootOrder hdone bsp, ?_, h.sched_eq hdone⟩
  intro p hp
  obtain ⟨e, he, rfl⟩ := List.mem_map.mp hp
  exact h.queue.one.calls e he

end Init

/-- Two CPUs, one after the other. -/
def twoCpus : SmpInfo 2 where
  tss i := if i.val = 0 then 0xffff800000001000 else 0xffff800000002000
  idle := ⟨fun i => i.val + 1, fun _ _ h => Fin.ext (Nat.succ.inj h), fun i => Nat.succ_ne_zero i⟩

def firstCpu : Fin 2 := ⟨0, Nat.two_pos⟩

def twoCpusTurns : List (Fin 2) :=
  List.replicate 40 firstCpu ++ List.replicate 40 ⟨1, Nat.one_lt_two⟩ ++ [firstCpu]

theorem two_cpus_boot : (smpInitRun twoCpus firstCpu twoCpusTurns).returned = true ∧
    (smpInitRun twoCpus firstCpu twoCpusTurns).smp.sched =
      coresInit [(firstCpu, 1), (⟨1, Nat.one_lt_two⟩, 2)] blank := by
  have hreturned : (smpInitRun twoCpus firstCpu twoCpusTurns).returned = true := by decide +kernel
  have horder : (smpInitRun twoCpus firstCpu twoCpusTurns).smp.order = [(firstCpu, 1), (⟨1, Nat.one_lt_two⟩, 2)] := by
    decide +kernel
  obtain ⟨-, -, -, -, hsched⟩ := smp_init_waits_for_boot twoCpus firstCpu twoCpusTurns hreturned
  rw [horder] at hsched
  exact ⟨hreturned, hsched⟩

end Flan.Sys
