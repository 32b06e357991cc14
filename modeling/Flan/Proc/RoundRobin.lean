import Flan.Lib.Walk
import Flan.Proc.Sched

/-! The order in which `get_next_thread` of `proc/sched.c` takes the threads of the run
queue: along the ring, from the thread behind the current one. -/
namespace Flan.Proc
open Flan.Lib

/-- A thread that `get_next_thread` takes. -/
def Runnable (q : RunQueue) (t : Nat) : Prop :=
  (q.threads t).blocked = false ∧ (q.threads t).running = false ∧ (q.threads t).lock = 0

instance (q : RunQueue) : DecidablePred (Runnable q) := fun _ => instDecidableAnd

/-- The first of the threads that can run, with its lock taken. -/
def firstRunnable (q : RunQueue) (threads : List Nat) : Nat × RunQueue :=
  match threads.find? fun t => Runnable q t with
  | none => (0, q)
  | some t => (t, q.modify t fun r => { r with lock := 1 })

section Loop
variable {q : RunQueue} {cur : Nat} {back : Nat → Prop} {threads : List Nat}

theorem firstRunnable_skip {t : Nat} (h : ¬Runnable q t) : firstRunnable q (t :: threads) = firstRunnable q threads := by
  rw [firstRunnable, List.find?_cons_of_neg (by simpa using h), firstRunnable]

theorem firstRunnable_take {t : Nat} (h : Runnable q t) :
    firstRunnable q (t :: threads) = (t, q.modify t fun r => { r with lock := 1 }) := by
  rw [firstRunnable, List.find?_cons_of_pos (by simpa using h)]

/-- One turn of the loop at a thread of the ring. -/
theorem getNextThreadLoop_turn {t : Nat} (hcur : t ≠ cur) (hnull : t ≠ 0) (fuel : Nat) :
    getNextThreadLoop q cur (fuel + 1) t =
      if Runnable q t then some (t, q.modify t fun r => { r with lock := 1 })
      else getNextThreadLoop q cur fuel (q.next t) := by
  rw [getNextThreadLoop, if_neg (not_or.mpr ⟨hcur, hnull⟩)]
  by_cases hbusy : (q.threads t).blocked ∨ (q.threads t).running
  · have hskip : ¬Runnable q t := by
      rintro ⟨hb, hr, -⟩
      rw [hb, hr] at hbusy
      exact absurd hbusy (by decide)
    rw [if_pos hbusy, if_neg hskip]
  · rw [if_neg hbusy]
    simp only [not_or, Bool.not_eq_true] at hbusy
    by_cases hlock : (q.threads t).lock = 0
    · rw [if_pos ⟨hbusy.1, hbusy.2, hlock⟩, spinlockTestAndAcq, if_pos hlock]
    · rw [if_neg fun h => hlock h.2.2, spinlockTestAndAcq, if_neg hlock]

/-- The loop goes through the threads that are left of the ring. -/
theorem getNextThreadLoop_eq {fuel : Nat} (hchain : (threads ++ [cur]).IsChain (Link q.next q.prev back))
    (hcur : cur ∉ threads) (hnull : 0 ∉ threads) (hfuel : threads.length < fuel) :
    getNextThreadLoop q cur fuel (threads.headD cur) = some (firstRunnable q threads) := by
  induction threads generalizing fuel with
  | nil =>
      cases fuel with
      | zero => exact absurd hfuel (lt_irrefl 0)
      | succ fuel => exact if_pos (.inl rfl)
  | cons t threads ih =>
      cases fuel with
      | zero => exact absurd hfuel (Nat.not_lt_zero _)
      | succ fuel =>
          rw [List.mem_cons, not_or] at hcur hnull
          rw [List.headD_cons, getNextThreadLoop_turn (Ne.symm hcur.1) (Ne.symm hnull.1)]
          by_cases hrun : Runnable q t
          · rw [if_pos hrun, firstRunnable_take hrun]
          · have hnext : q.next t = threads.headD cur := by
              cases threads with
              | nil => exact (List.isChain_cons_cons.mp hchain).1.1
              | cons u threads => exact (List.isChain_cons_cons.mp hchain).1.1
            rw [if_neg hrun, firstRunnable_skip hrun, hnext]
            exact ih hchain.tail hcur.2 hnull.2 (Nat.lt_of_succ_lt_succ hfuel)

/-- The first of a list, or none of it. -/
theorem firstRunnable_spec (hnull : 0 ∉ threads) :
    ((firstRunnable q threads).1 = 0 ↔ ∀ t ∈ threads, ¬Runnable q t) ∧
    ((firstRunnable q threads).1 = 0 → (firstRunnable q threads).2 = q) ∧
    ((firstRunnable q threads).1 ≠ 0 → ∃ before behind, threads = before ++ (firstRunnable q threads).1 :: behind ∧
      Runnable q (firstRunnable q threads).1 ∧ (∀ t ∈ before, ¬Runnable q t) ∧
      (firstRunnable q threads).2 = q.modify (firstRunnable q threads).1 fun r => { r with lock := 1 }) := by
  rw [firstRunnable]
  cases hf : threads.find? fun t => Runnable q t with
  | none =>
      have hnone : ∀ t ∈ threads, ¬Runnable q t := by simpa using hf
      exact ⟨iff_of_true rfl hnone, fun _ => rfl, fun h => absurd rfl h⟩
  | some t =>
      obtain ⟨hrun, before, behind, hsplit, hbefore⟩ := List.find?_eq_some_iff_append.mp hf
      have hrun : Runnable q t := of_decide_eq_true hrun
      have hmem : t ∈ threads := hsplit ▸ List.mem_append_right before List.mem_cons_self
      have hne : t ≠ 0 := fun h => hnull (h ▸ hmem)
      refine ⟨iff_of_false hne fun h => h t hmem hrun, fun h => absurd h hne, fun _ => ?_⟩
      exact ⟨before, behind, hsplit, hrun, fun x hx => by simpa using hbefore x hx, rfl⟩

/-- What the loop returns is the first thread on its way that can run. -/
theorem getNextThreadLoop_first {q' : RunQueue} {a t fuel : Nat} (ht : t ≠ 0)
    (h : getNextThreadLoop q cur fuel (q.next a) = some (t, q')) :
    Runnable q t ∧ ∃ us, Path q.next a us t ∧ ∀ u ∈ us, ¬Runnable q u := by
  induction fuel generalizing a with
  | zero => cases h
  | succ fuel ih =>
      by_cases hend : q.next a = cur ∨ q.next a = 0
      · rw [getNextThreadLoop, if_pos hend] at h
        exact absurd (Prod.mk.inj (Option.some.inj h)).1.symm ht
      · rw [not_or] at hend
        rw [getNextThreadLoop_turn hend.1 hend.2] at h
        split at h
        case isTrue hrun =>
            obtain ⟨rfl, -⟩ := Prod.mk.inj (Option.some.inj h)
            exact ⟨hrun, [], rfl, fun _ hu => absurd hu List.not_mem_nil⟩
        case isFalse hbusy =>
            obtain ⟨hrun, us, hpath, hus⟩ := ih h
            exact ⟨hrun, q.next a :: us, ⟨rfl, hpath⟩, List.forall_mem_cons.mpr ⟨hbusy, hus⟩⟩

end Loop

section RoundRobin
variable {n : Nat}

/-- The first thread behind the current one of the CPU that can run. -/
def Sched.Picks (s : Sched n) (c : Fin n) (t : Nat) : Prop :=
  Runnable s.queue t ∧ ∃ us, Path s.queue.next (s.current c) us t ∧ ∀ u ∈ us, ¬Runnable s.queue u

/-- A thread can run after the running one has been saved exactly if it could before. -/
theorem Stays.runnable_iff {s v : Sched n} {c : Fin n} {frame : InterruptFrame} (hv : Stays s c frame v) (t : Nat) :
    Runnable v.queue t ↔ Runnable s.queue t := by
  have hb : (v.queue.threads t).blocked = (s.queue.threads t).blocked := hv.shape.blocked t
  have hr : (v.queue.threads t).running = (s.queue.threads t).running := hv.running t
  have hl : (v.queue.threads t).lock = (s.queue.threads t).lock := hv.lock t
  rw [Runnable, hb, hr, hl, Runnable]

/-- A tick looks along the ring once the running thread has been saved, and switches to what it finds. -/
theorem schedTick_scan {s s' : Sched n} {c : Fin n} {frame : InterruptFrame} {fuel : Nat}
    {r : Option (Nat × InterruptFrame)} (h : schedTick fuel s c frame = some (s', r)) :
    ∃ v t q, Stays s c frame v ∧
      getNextThreadLoop v.queue (s.current c) fuel (v.queue.next (s.current c)) = some (t, q) ∧
      r.map Prod.fst = if t = 0 then none else some t := by
  have hv := saveState_stays s c frame
  unfold schedTick schedVector at h
  generalize saveState { s with frames := Function.update s.frames (.ist c) frame } c (.ist c) = v at h hv
  dsimp only at h
  split at h
  · cases h
  · rename_i t q hfound
    unfold getNextThread at hfound
    rw [hv.current] at hfound
    refine ⟨v, t, q, hv, hfound, ?_⟩
    split at h
    · obtain ⟨-, rfl⟩ := Prod.mk.inj (Option.some.inj h)
      exact (if_pos ‹_›).symm
    · obtain ⟨-, rfl⟩ := Prod.mk.inj (Option.some.inj h)
      exact (if_neg ‹_›).symm

/-- A tick that switches takes this thread. -/
theorem schedTick_picks {s s' : Sched n} {c : Fin n} {frame f : InterruptFrame} {fuel t : Nat}
    (h : schedTick fuel s c frame = some (s', some (t, f))) : s.Picks c t := by
  obtain ⟨v, y, q, hv, hfound, hret⟩ := schedTick_scan h
  split at hret
  · cases hret
  · rename_i hy
    cases hret
    obtain ⟨hrun, us, hpath, hus⟩ := getNextThreadLoop_first hy hfound
    refine ⟨(hv.runnable_iff t).mp hrun, us, hpath.congr fun x _ => (hv.shape.next x).symm, fun u hu => ?_⟩
    exact fun hu' => hus u hu ((hv.runnable_iff u).mpr hu')

/-- On a ring through the current thread `get_next_thread` returns, with the first thread
behind the current one that can run or with `NULL` if there is none. -/
theorem get_next_thread_round_robin (s : Sched n) (c : Fin n) {threads : List Nat}
    (hring : Ring s.queue.next s.queue.prev (fun _ => False) (s.current c) threads) (hnull : 0 ∉ threads) :
    ∃ t q, (∀ fuel, threads.length < fuel → getNextThread fuel s c = some (t, q)) ∧
      (t = 0 ↔ ∀ x ∈ threads, ¬Runnable s.queue x) ∧ (t = 0 → q = s.queue) ∧
      (t ≠ 0 → ∃ before behind, threads = before ++ t :: behind ∧ Runnable s.queue t ∧
        (∀ x ∈ before, ¬Runnable s.queue x) ∧ q = s.queue.modify t fun r => { r with lock := 1 }) := by
  refine ⟨(firstRunnable s.queue threads).1, (firstRunnable s.queue threads).2, ?_, firstRunnable_spec hnull⟩
  intro fuel hfuel
  rw [getNextThread, hring.next_head]
  exact getNextThreadLoop_eq hring.chain.tail (List.nodup_cons.mp hring.nodup).1 hnull hfuel

end RoundRobin

/-- Three threads on a ring, the first of them current and the second blocked. -/
def threeThreads : Sched 1 where
  queue :=
    { threads := fun t =>
        if t = 1 then { next := 2, running := true, lock := 1 }
        else if t = 2 then { next := 3, blocked := true }
        else { next := 1 }
      queueStart := 1
      queueEnd := 3 }
  frames := fun _ => {}
  cpus := fun _ => { currentThread := 1 }

theorem threeThreads_ring :
    Ring threeThreads.queue.next threeThreads.queue.prev (fun _ => False) (threeThreads.current 0) [2, 3] := by
  refine ⟨by decide, ?_⟩
  have hlink : ∀ x y, threeThreads.queue.next x = y → Link threeThreads.queue.next threeThreads.queue.prev
      (fun _ => False) x y := fun x y h => ⟨h, False.elim⟩
  exact .cons_cons (hlink 1 2 rfl) (.cons_cons (hlink 2 3 rfl) (.cons_cons (hlink 3 1 rfl) (.singleton 1)))

/-- A thread is found: the third is neither blocked nor running. -/
theorem threeThreads_next : ∃ t q, getNextThread 3 threeThreads 0 = some (t, q) ∧ t ≠ 0 := by
  obtain ⟨t, q, hrun, hnull, -, -⟩ := get_next_thread_round_robin threeThreads 0 threeThreads_ring (by decide)
  refine ⟨t, q, hrun 3 (by decide), fun h => ?_⟩
  exact absurd (hnull.mp h 3 (by decide)) (by decide)

end Flan.Proc
