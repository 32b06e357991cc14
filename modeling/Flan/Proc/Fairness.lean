import Flan.Proc.Preemption
import Flan.Proc.RoundRobin

/-! The order in which the threads of the ring are served. No timer takes a CPU from its thread, so that a CPU comes to
the scheduler with its idle thread only, and `get_next_thread` goes along `next` from there. The idle threads stand
before all the others, and a new thread is linked in behind them: a thread waits for those that stand before it. -/
namespace Flan.Proc
open Flan.Lib Flan.Dev

section Fairness
variable {n : Nat}

/-! ### The flags of a thread -/

/-- What the flags say of a thread that is not an idle one. -/
def Flags (w : World n) : Prop :=
  ∀ t ∈ w.created, (∀ c, t ≠ w.sched.idle c) → (w.sched.thread t).blocked = false ∧
    ((w.sched.thread t).lock = 0 ∨ (w.sched.thread t).lock = 1) ∧
    ((w.sched.thread t).running = true → ∃ c, w.sched.current c = t)

theorem release_word {l : Nat} (h : l = 0 ∨ l = 1) : spinlockRelease l = 0 ∨ spinlockRelease l = 1 := by
  rcases h with rfl | rfl
  · exact .inl rfl
  · exact .inl rfl

/-- A thread that is current on a CPU stays so when another CPU moves. -/
theorem current_elsewhere {s s' : Sched n} {c : Fin n} {t z : Nat}
    (hcur : ∀ d, s'.current d = if d = c then z else s.current d) (hne : t ≠ s.current c)
    (h : ∃ d, s.current d = t) : ∃ d, s'.current d = t := by
  obtain ⟨d, rfl⟩ := h
  have hdc : d ≠ c := fun heq => hne (heq ▸ rfl)
  exact ⟨d, (hcur d).trans (if_neg hdc)⟩

theorem Flags.tick {w : World n} {c : Fin n} {frame : InterruptFrame} {fuel : Nat} {s' : Sched n}
    {r : Option (Nat × InterruptFrame)} (h : Flags w) (hs : schedTick fuel w.sched c frame = some (s', r)) :
    Flags { w with sched := s' } := by
  intro t ht hidle
  rcases schedTick_spec (P := fun _ => True) (fun _ _ => trivial) trivial hs with ⟨-, hs⟩ | ⟨y, -, hs, -⟩
  · simp only [hs.shape.idle] at hidle
    simpa only [hs.shape.blocked, hs.lock, hs.running, hs.current] using h t ht hidle
  · simp only [hs.shape.idle] at hidle
    obtain ⟨hb, hl, hrun⟩ := h t ht hidle
    refine ⟨(hs.shape.blocked t).trans hb, ?_, ?_⟩
    · rw [hs.lock]
      split
      · exact .inr rfl
      · split
        · exact release_word hl
        · exact hl
    · rw [hs.running]
      split
      · exact fun _ => ⟨c, (hs.current c).trans ((if_pos rfl).trans (Eq.symm ‹t = y›))⟩
      · split
        · intro hfalse
          cases hfalse
        · exact fun hr => current_elsewhere hs.current ‹_› (hrun hr)

theorem Flags.create {w : World n} {t cr3 : Nat} {frame : InterruptFrame} (hw : SchedInv w) (h : Flags w) :
    Flags { w with sched := createThread w.sched t cr3 frame, created := t :: w.created } := by
  obtain ⟨xs, hr, -⟩ := hw
  have hs := createThread_spec (t := t) cr3 frame hr.ends_ne_zero.1 hr.ends_ne_zero.2
  intro y hy hidle
  rw [hs.blocked, hs.lock, hs.running]
  by_cases hyt : y = t
  · simp [hyt]
  · simp only [if_neg hyt]
    exact h y ((List.mem_cons.mp hy).resolve_left hyt) hidle

theorem Flags.die {w : World n} {c : Fin n} (hw : SchedInv w) (h : Flags w) :
    Flags { w with sched := dequeueAndDie w.sched c, dead := w.sched.current c :: w.dead } := by
  obtain ⟨xs, hr, hx⟩ := hw
  have hs := dequeueAndDie_spec (hr.enqueued _ (hx.currentOn c))
  intro y hy hidle
  simp only [hs.idle] at hidle
  obtain ⟨hb, hl, hrun⟩ := h y hy hidle
  refine ⟨(hs.blocked y).trans hb, ?_, ?_⟩
  · rw [hs.lock]
    split
    · exact release_word hl
    · exact hl
  · rw [hs.running]
    split
    · intro hfalse
      cases hfalse
    · exact fun hr => current_elsewhere hs.current ‹_› (hrun hr)

theorem Flags.step {w w' : World n} {e : Event n} {r : Option (Nat × InterruptFrame)} (hw : SchedInv w) (h : Flags w)
    (hs : Step w e r w') : Flags w' := by
  cases hs with
  | tick hs => exact h.tick hs
  | create hz hnew => exact h.create hw
  | die hne => exact h.die hw

/-- At boot there are idle threads only. -/
theorem flags_boot {order : List (Fin n × Nat)} (ho : BootOrder order) : Flags (boot order) := by
  intro t ht hidle
  obtain ⟨p, hp, rfl⟩ := List.mem_map.mp ht
  exact absurd ((booted_boot ho).cpus p hp).2.1.symm (hidle p.1)

/-! ### The loop along a path -/

/-- Before it comes to a thread that can run, `get_next_thread` has taken another one of the way. -/
theorem getNextThreadLoop_path {q q' : RunQueue} {cur a t y fuel : Nat} {us : List Nat} (hpath : Path q.next a us t)
    (hcur : cur ∉ us ++ [t]) (hnull : 0 ∉ us ++ [t]) (hrun : Runnable q t)
    (h : getNextThreadLoop q cur fuel (q.next a) = some (y, q')) : ∃ before behind, us ++ [t] = before ++ y :: behind := by
  induction us generalizing a fuel with
  | nil =>
      rw [hpath] at h
      cases fuel with
      | zero => cases h
      | succ fuel =>
          simp only [List.nil_append, List.mem_singleton] at hcur hnull
          rw [getNextThreadLoop_turn (Ne.symm hcur) (Ne.symm hnull), if_pos hrun] at h
          obtain ⟨rfl, -⟩ := Prod.mk.inj (Option.some.inj h)
          exact ⟨[], [], rfl⟩
  | cons u us ih =>
      rw [hpath.1] at h
      cases fuel with
      | zero => cases h
      | succ fuel =>
          simp only [List.cons_append, List.mem_cons, not_or] at hcur hnull
          rw [getNextThreadLoop_turn (Ne.symm hcur.1) (Ne.symm hnull.1)] at h
          split at h
          · obtain ⟨rfl, -⟩ := Prod.mk.inj (Option.some.inj h)
            exact ⟨[], us ++ [t], rfl⟩
          · obtain ⟨before, behind, hsplit⟩ := ih hpath.2 hcur.2 hnull.2 h
            exact ⟨u :: before, behind, by rw [List.cons_append, hsplit, List.cons_append]⟩

/-- So a tick with such a thread ahead takes a thread of the way. -/
theorem schedTick_path {s s' : Sched n} {c : Fin n} {frame : InterruptFrame} {fuel t : Nat} {us : List Nat}
    {r : Option (Nat × InterruptFrame)} (hpath : Path s.queue.next (s.current c) us t)
    (hcur : s.current c ∉ us ++ [t]) (hnull : 0 ∉ us ++ [t]) (hrun : Runnable s.queue t)
    (h : schedTick fuel s c frame = some (s', r)) :
    ∃ y f before behind, r = some (y, f) ∧ us ++ [t] = before ++ y :: behind := by
  obtain ⟨v, y, q, hv, hfound, hret⟩ := schedTick_scan h
  have hpath' : Path v.queue.next (s.current c) us t := hpath.congr fun x _ => hv.shape.next x
  obtain ⟨before, behind, hsplit⟩ := getNextThreadLoop_path hpath' hcur hnull ((hv.runnable_iff t).mpr hrun) hfound
  have hy : y ≠ 0 := fun h0 => hnull (by rw [hsplit, h0]; simp)
  rw [if_neg hy] at hret
  obtain ⟨⟨z, f⟩, rfl, rfl⟩ := Option.map_eq_some_iff.mp hret
  exact ⟨z, f, before, behind, rfl, hsplit⟩

theorem SchedInv.unique {w : World n} (hw : SchedInv w) {ys : List Nat} (hr : OnRing w.sched w.created ys) :
    Exclusive w ys := by
  obtain ⟨zs, hr', hx⟩ := hw
  rwa [hr.ring.unique hr'.ring]

/-! ### The idle threads -/

/-- The idle threads are the first of the ring. -/
def IdlesFirst (w : World n) : Prop :=
  ∃ I J, OnRing w.sched w.created (I ++ J) ∧ (∀ x ∈ I, ∃ d, x = w.sched.idle d) ∧
    ∀ d, w.sched.idle d ∈ w.sched.queue.queueStart :: I

theorem IdlesFirst.step {w w' : World n} {e : Event n} {r : Option (Nat × InterruptFrame)} (hw : SchedInv w)
    (h : IdlesFirst w) (hs : Step w e r w') : IdlesFirst w' := by
  obtain ⟨I, J, hr, hidle, hall⟩ := h
  cases hs with
  | @tick c frame fuel s' r hs =>
      have hshape : SameShape w.sched s' := by
        rcases schedTick_spec (P := fun _ => True) (fun _ _ => trivial) trivial hs with ⟨-, hs⟩ | ⟨y, -, hs, -⟩
        · exact hs.shape
        · exact hs.shape
      refine ⟨I, J, hr.same hshape, ?_, ?_⟩
      · simpa only [hshape.idle] using hidle
      · simpa only [hshape.idle, hshape.queueStart] using hall
  | @create t cr3 frame hz hnew =>
      have hs := createThread_spec (t := t) cr3 frame hr.ends_ne_zero.1 hr.ends_ne_zero.2
      obtain ⟨ys, hring, ⟨K, rfl⟩, -⟩ := hr.create hz hnew hs
      refine ⟨I, J ++ K, ?_, hidle, ?_⟩
      · rwa [← List.append_assoc]
      · rw [hs.queueStart]
        exact hall
  | @die c hne =>
      have hx := hw.unique hr
      have hs := dequeueAndDie_spec (hr.enqueued _ (hx.currentOn c))
      have hapart := hx.not_idle hne
      have hmem : w.sched.current c ∈ J := by
        refine ((List.mem_append.mp (hr.mem_of_not_idle (hx.currentOn c) hapart)).resolve_left fun hI => ?_)
        obtain ⟨d, hd⟩ := hidle _ hI
        exact hapart d hd
      obtain ⟨U, V, rfl⟩ := List.append_of_mem hmem
      rw [← List.append_assoc] at hr
      refine ⟨I, U ++ V, ?_, ?_, ?_⟩
      · rw [← List.append_assoc]
        exact hr.die hapart hs
      · simpa only [hs.idle] using hidle
      · simpa only [hs.idle, hs.queueStart] using hall

theorem idlesFirst_boot {order : List (Fin n × Nat)} (ho : BootOrder order) : IdlesFirst (boot order) := by
  obtain ⟨xs, hr, -⟩ := schedInv_boot ho
  refine ⟨xs, [], ?_, fun x hx => ?_, hr.idleOn⟩
  · rwa [List.append_nil]
  · obtain ⟨p, hp, rfl⟩ := List.mem_map.mp (hr.created x (List.mem_cons_of_mem _ hx))
    exact ⟨p.1, ((booted_boot ho).cpus p hp).2.1.symm⟩

/-- A thread that is not an idle one has them all before it. -/
theorem IdlesFirst.before {w : World n} {A C : List Nat} {t : Nat} (h : IdlesFirst w)
    (hr : OnRing w.sched w.created (A ++ t :: C)) (ht : ∀ d, t ≠ w.sched.idle d) (d : Fin n) :
    w.sched.idle d ∈ w.sched.queue.queueStart :: A := by
  obtain ⟨I, J, hr', hidle, hall⟩ := h
  refine List.cons_subset_cons _ ?_ (hall d)
  rcases List.append_eq_append_iff.mp (hr'.ring.unique hr.ring) with ⟨K, rfl, -⟩ | ⟨K, rfl, hK⟩
  · exact List.subset_append_left I K
  · cases K with
    | nil => simp
    | cons y K =>
        obtain ⟨rfl, -⟩ := List.cons.inj hK
        obtain ⟨e, he⟩ := hidle t (by simp)
        exact absurd he (ht e)

/-! ### The threads before a thread -/

/-- The thread is not an idle one and runs on no CPU. -/
def Sched.waits (s : Sched n) (x : Nat) : Bool := (List.finRange n).all fun d => s.current d != x && s.idle d != x

/-- How many threads of a list wait. -/
def Sched.waiting (s : Sched n) (A : List Nat) : Nat := A.countP s.waits

theorem Sched.waits_iff {s : Sched n} {x : Nat} : s.waits x = true ↔ ∀ d, s.current d ≠ x ∧ s.idle d ≠ x := by
  simp [Sched.waits]

/-- When a CPU leaves its thread for another one, no other thread begins to wait. -/
theorem Sched.waits_of_moved {s s' : Sched n} {d : Fin n} {x z : Nat} (hidle : ∀ e, s'.idle e = s.idle e)
    (hcur : ∀ e, s'.current e = if e = d then z else s.current e) (hne : s.current d ≠ x) (h : s'.waits x = true) :
    s.waits x = true := by
  rw [Sched.waits_iff] at h ⊢
  intro e
  obtain ⟨hcur', hidle'⟩ := h e
  rw [hidle] at hidle'
  rw [hcur] at hcur'
  refine ⟨?_, hidle'⟩
  by_cases hed : e = d
  · rwa [hed]
  · rwa [if_neg hed] at hcur'

theorem Sched.waiting_lt {s s' : Sched n} {A : List Nat} {y : Nat} (hy : y ∈ A)
    (hsub : ∀ x, s'.waits x = true → s.waits x = true) (hbefore : s.waits y = true) (hafter : s'.waits y = false) :
    s'.waiting A < s.waiting A := by
  obtain ⟨P, Q, rfl⟩ := List.append_of_mem hy
  have hP : s'.waiting P ≤ s.waiting P := List.countP_mono_left fun x _ => hsub x
  have hQ : s'.waiting Q ≤ s.waiting Q := List.countP_mono_left fun x _ => hsub x
  simp only [Sched.waiting, List.countP_append, List.countP_cons, hbefore, hafter] at hP hQ ⊢
  simp only [if_true, Bool.false_eq_true, if_false]
  omega

/-- The thread is on the ring behind the threads of a list, which the idle threads are among. -/
structure Behind (w : World n) (t : Nat) (A : List Nat) : Prop where
  inv : SchedInv w
  flags : Flags w
  ring : ∃ C, OnRing w.sched w.created (A ++ t :: C)
  idles : ∀ d, w.sched.idle d ∈ w.sched.queue.queueStart :: A

section Behind
variable {w : World n} {d : Fin n} {t : Nat} {A : List Nat}

theorem Behind.not_idle (h : Behind w t A) (e : Fin n) : t ≠ w.sched.idle e := by
  obtain ⟨C, hr⟩ := h.ring
  have hnd := hr.ring.nodup
  rw [← List.cons_append, List.nodup_append] at hnd
  exact fun heq => hnd.2.2 _ (h.idles e) t List.mem_cons_self heq.symm

theorem Behind.runnable (h : Behind w t A) (hwaits : ∀ e, w.sched.current e ≠ t) : Runnable w.sched.queue t := by
  obtain ⟨C, hr⟩ := h.ring
  have hcreated := hr.created t (by simp)
  have hnowhere : ¬∃ e, w.sched.current e = t := fun ⟨e, he⟩ => hwaits e he
  obtain ⟨hb, hl, hrun⟩ := h.flags t hcreated h.not_idle
  refine ⟨hb, ?_, ?_⟩
  · exact Bool.eq_false_iff.mpr fun hr => hnowhere (hrun hr)
  · exact hl.resolve_right fun hone => hnowhere (((h.inv.unique hr).locked t hcreated h.not_idle).mp hone)

/-- A thread that can run is one that waits. -/
theorem waits_of_free {xs : List Nat} {y : Nat} (hr : OnRing w.sched w.created xs) (hx : Exclusive w xs)
    (hy : y ∈ w.sched.queue.queueStart :: xs) (hblocked : (w.sched.thread y).blocked = false)
    (hlock : (w.sched.thread y).lock = 0) : w.sched.waits y = true := by
  have hidle : ∀ e, y ≠ w.sched.idle e := by
    rintro e rfl
    exact Bool.false_ne_true (hblocked.symm.trans (hr.idleBlocked e))
  refine Sched.waits_iff.mpr fun e => ⟨fun he => ?_, (hidle e).symm⟩
  have hone := (hx.locked y (hr.created y hy) hidle).mpr ⟨e, he⟩
  omega

/-- From an idle CPU the ring leads through threads before the one that waits. -/
theorem Behind.way (h : Behind w t A) (hidle : w.sched.current d = w.sched.idle d) :
    ∃ us, Path w.sched.queue.next (w.sched.current d) us t ∧ w.sched.current d ∉ us ++ [t] ∧
      ∀ u ∈ us, u ∈ w.sched.queue.queueStart :: A := by
  obtain ⟨C, hr⟩ := h.ring
  obtain ⟨A₁, us, hsplit⟩ := List.append_of_mem (h.idles d)
  have hfull : w.sched.queue.queueStart :: (A ++ t :: C) = A₁ ++ w.sched.idle d :: (us ++ t :: C) := by
    rw [← List.cons_append, hsplit, List.append_assoc, List.cons_append]
  have hnd := hr.ring.nodup
  rw [hfull, List.nodup_append] at hnd
  obtain ⟨hnot, -⟩ := List.nodup_cons.mp hnd.2.1
  rw [hidle]
  refine ⟨us, hr.ring.path hfull, ?_, ?_⟩
  · simp only [List.mem_append, List.mem_cons, not_or] at hnot ⊢
    exact ⟨hnot.1, hnot.2.1, List.not_mem_nil⟩
  · intro u hu
    rw [hsplit]
    exact List.mem_append_right _ (List.mem_cons_of_mem _ hu)

/-- `get_next_thread` takes one of these. -/
theorem Behind.tick {frame : InterruptFrame} {fuel : Nat} {s' : Sched n} {r : Option (Nat × InterruptFrame)}
    (h : Behind w t A) (hidle : w.sched.current d = w.sched.idle d) (hwaits : ∀ e, w.sched.current e ≠ t)
    (hs : schedTick fuel w.sched d frame = some (s', r)) (hne : s'.current d ≠ t) :
    Behind { w with sched := s' } t A ∧ s'.waiting A < w.sched.waiting A := by
  obtain ⟨C, hr⟩ := h.ring
  obtain ⟨us, hpath, hcur, hus⟩ := h.way hidle
  have hon : ∀ x ∈ us ++ [t], x ∈ w.sched.queue.queueStart :: (A ++ t :: C) := by
    intro x hmem
    rcases List.mem_append.mp hmem with hu | hx
    · exact List.cons_subset_cons _ (List.subset_append_left A _) (hus x hu)
    · simp [List.mem_singleton.mp hx]
  obtain ⟨y, f, before, behind, rfl, hway⟩ :=
    schedTick_path hpath hcur (fun h0 => hr.nonnull (hon 0 h0)) (h.runnable hwaits) hs
  rcases schedTick_spec (P := fun _ => True) (fun _ _ => trivial) trivial hs with ⟨hnone, -⟩ | ⟨z, -, hs', hz⟩
  · cases hnone
  obtain ⟨rfl, -⟩ := Prod.mk.inj (Option.some.inj hz)
  have hto : s'.current d = y := (hs'.current d).trans (if_pos rfl)
  have hmem : y ∈ us ++ [t] := hway ▸ List.mem_append_right _ List.mem_cons_self
  have hyus : y ∈ us := by
    refine (List.mem_append.mp hmem).resolve_right fun hy => hne ?_
    exact hto.trans (List.mem_singleton.mp hy)
  have hfree := waits_of_free hr (h.inv.unique hr) (hon y hmem) hs'.free.1 hs'.free.2.2
  have hystart : y ≠ w.sched.queue.queueStart := by
    obtain ⟨e, he⟩ := hr.startIdle
    rw [he]
    exact (Sched.waits_iff.mp hfree e).2.symm
  refine ⟨⟨schedInv_tick h.inv hs, h.flags.tick hs, ⟨C, hr.same hs'.shape⟩, ?_⟩, ?_⟩
  · simpa only [hs'.shape.idle, hs'.shape.queueStart] using h.idles
  · refine Sched.waiting_lt ((List.mem_cons.mp (hus y hyus)).resolve_left hystart) (fun x hx => ?_) hfree ?_
    · have hdx := (Sched.waits_iff.mp hx d).2
      rw [hs'.shape.idle, ← hidle] at hdx
      exact Sched.waits_of_moved hs'.shape.idle hs'.current hdx hx
    · exact Bool.eq_false_iff.mpr fun hw => (Sched.waits_iff.mp hw d).1 hto

/-- A new thread comes behind it. -/
theorem Behind.create {z cr3 : Nat} {frame : InterruptFrame} (h : Behind w t A) (hz : z ≠ 0) (hnew : z ∉ w.created) :
    Behind { w with sched := createThread w.sched z cr3 frame, created := z :: w.created } t A := by
  obtain ⟨C, hr⟩ := h.ring
  have hs := createThread_spec (t := z) cr3 frame hr.ends_ne_zero.1 hr.ends_ne_zero.2
  obtain ⟨ys, hring, ⟨K, rfl⟩, -⟩ := hr.create hz hnew hs
  refine ⟨schedInv_create h.inv hz hnew, h.flags.create h.inv, ⟨C ++ K, ?_⟩, ?_⟩
  · rwa [List.append_assoc, List.cons_append] at hring
  · rw [hs.queueStart]
    exact h.idles

/-- The thread that dies was not waiting, and no other thread begins to. -/
theorem Behind.die (h : Behind w t A) (hne : w.sched.current d ≠ w.sched.idle d) (ht : w.sched.current d ≠ t) :
    Behind { w with sched := dequeueAndDie w.sched d, dead := w.sched.current d :: w.dead } t
        (A.erase (w.sched.current d)) ∧
      (dequeueAndDie w.sched d).waiting (A.erase (w.sched.current d)) ≤ w.sched.waiting A := by
  obtain ⟨C, hr⟩ := h.ring
  have hx := h.inv.unique hr
  have hapart := hx.not_idle hne
  have hs := dequeueAndDie_spec (hr.enqueued _ (hx.currentOn d))
  have hnd : A.Nodup := (List.nodup_append.mp (List.nodup_cons.mp hr.ring.nodup).2).1
  have hring := hr.erase (hr.mem_of_not_idle (hx.currentOn d) hapart) hapart hs
  refine ⟨⟨schedInv_die h.inv hne, h.flags.die h.inv, ?_, fun e => ?_⟩, ?_⟩
  · rw [List.erase_append] at hring
    split at hring
    · exact ⟨C, hring⟩
    · rw [List.erase_cons_tail (by simpa using Ne.symm ht)] at hring
      rw [List.erase_of_not_mem ‹_›]
      exact ⟨_, hring⟩
  · rw [hs.idle, hs.queueStart]
    refine (List.mem_cons.mp (h.idles e)).elim (fun heq => heq ▸ List.mem_cons_self) fun hmem => ?_
    exact List.mem_cons_of_mem _ (hnd.mem_erase_iff.mpr ⟨(hapart e).symm, hmem⟩)
  · have hsub : ∀ x ∈ A.erase (w.sched.current d), (dequeueAndDie w.sched d).waits x = true → w.sched.waits x = true := by
      intro x hmem
      exact Sched.waits_of_moved hs.idle hs.current (hnd.mem_erase_iff.mp hmem).1.symm
    calc (dequeueAndDie w.sched d).waiting (A.erase (w.sched.current d))
        ≤ w.sched.waiting (A.erase (w.sched.current d)) := List.countP_mono_left hsub
      _ ≤ w.sched.waiting A := List.erase_sublist.countP_le

end Behind

/-! ### Runs -/

/-- An interrupt that calls the scheduler, on whatever CPU. -/
def TimedEvent.interrupts : TimedEvent n → Bool
  | .timer _ _ => true
  | .ipi _ _ => true
  | _ => false

theorem TimedStep.world {T T' : Timed n} {e : TimedEvent n} (hs : TimedStep T e T') :
    ∃ e' r, Step T.world e' r T'.world := by
  cases hs with
  | timer hcounts hs => exact ⟨_, _, .tick hs⟩
  | ipi hpending hs => exact ⟨_, _, .tick hs⟩
  | create hz hnew => exact ⟨_, _, .create hz hnew⟩
  | die hne => exact ⟨_, _, .die hne⟩

/-- While a thread waits, each interrupt takes one of the threads before it. -/
theorem Behind.step {T T' : Timed n} {e : TimedEvent n} {t : Nat} {A : List Nat} (hT : TimedInv T)
    (h : Behind T.world t A) (hs : TimedStep T e T') (hbefore : ∀ d, T.world.sched.current d ≠ t)
    (hafter : ∀ d, T'.world.sched.current d ≠ t) :
    ∃ A', Behind T'.world t A' ∧ e.interrupts.toNat + T'.world.sched.waiting A' ≤ T.world.sched.waiting A := by
  cases hs with
  | @timer c frame fuel s' r hcounts hs =>
      obtain ⟨hw, hlt⟩ := h.tick (hT.counts c hcounts) hbefore hs (hafter c)
      exact ⟨A, hw, Nat.one_add_le_iff.mpr hlt⟩
  | @ipi c frame fuel s' r hpending hs =>
      obtain ⟨hw, hlt⟩ := h.tick (hT.pending c hpending).1 hbefore hs (hafter c)
      exact ⟨A, hw, Nat.one_add_le_iff.mpr hlt⟩
  | create hz hnew => exact ⟨A, h.create hz hnew, (Nat.zero_add _).le⟩
  | @die c hne =>
      obtain ⟨hw, hle⟩ := h.die hne (hbefore c)
      exact ⟨_, hw, (Nat.zero_add _).trans_le hle⟩

/-- At some point of the run the thread is the current one of a CPU. -/
def Serves (T : Timed n) (trace : List (TimedEvent n)) (T' : Timed n) (t : Nat) : Prop :=
  ∃ before after V d, trace = before ++ after ∧ Trace TimedStep T before V ∧ Trace TimedStep V after T' ∧
    V.world.sched.current d = t

theorem Serves.snoc {T T' T₂ : Timed n} {trace : List (TimedEvent n)} {e : TimedEvent n} {t : Nat}
    (h : Serves T trace T' t) (hs : TimedStep T' e T₂) : Serves T (trace ++ [e]) T₂ t := by
  obtain ⟨before, after, V, d, rfl, hbefore, hafter, hd⟩ := h
  exact ⟨before, after ++ [e], V, d, List.append_assoc .., hbefore, hafter.snoc hs, hd⟩

theorem Behind.run {T T' : Timed n} {trace : List (TimedEvent n)} {t : Nat} {A : List Nat} (hT : TimedInv T)
    (h : Behind T.world t A) (hrun : Trace TimedStep T trace T') :
    Serves T trace T' t ∨ (∀ d, T'.world.sched.current d ≠ t) ∧ ∃ A', Behind T'.world t A' ∧
      occurs TimedEvent.interrupts trace + T'.world.sched.waiting A' ≤ T.world.sched.waiting A := by
  induction hrun with
  | nil =>
      by_cases hd : ∃ d, T.world.sched.current d = t
      · obtain ⟨d, hd⟩ := hd
        exact .inl ⟨[], [], T, d, rfl, .nil, .nil, hd⟩
      · exact .inr ⟨not_exists.mp hd, A, h, by simp [occurs]⟩
  | @snoc trace e V T' hmid hs ih =>
      rcases ih with hserved | ⟨hwaits, A', hA', hle⟩
      · exact .inl (hserved.snoc hs)
      · by_cases hd : ∃ d, T'.world.sched.current d = t
        · obtain ⟨d, hd⟩ := hd
          exact .inl ⟨_, [], T', d, (List.append_nil _).symm, hmid.snoc hs, .nil, hd⟩
        · have hV := hmid.invariant (fun _ _ _ h hs => h.step hs) hT
          obtain ⟨B, hB, hle'⟩ := hA'.step hV hs hwaits (not_exists.mp hd)
          refine .inr ⟨not_exists.mp hd, B, hB, ?_⟩
          rw [occurs_snoc]
          omega

/-- What holds in every state of the machine with its timers. -/
theorem timed_reaches {order : List (Fin n × Nat)} (ho : BootOrder order) {lapic : Fin n → TimerCpu}
    {counting : Fin n → Bool} {trace : List (TimedEvent n)} {T : Timed n}
    (hrun : Trace TimedStep (timedBoot order lapic counting) trace T) :
    TimedInv T ∧ Flags T.world ∧ IdlesFirst T.world := by
  have hstep : ∀ (U : Timed n) e V, TimedInv U ∧ Flags U.world ∧ IdlesFirst U.world → TimedStep U e V →
      TimedInv V ∧ Flags V.world ∧ IdlesFirst V.world := by
    rintro U e V ⟨hinv, hflags, hidles⟩ hs
    obtain ⟨e', r, hw⟩ := hs.world
    exact ⟨hinv.step hs, hflags.step hinv.sched hw, hidles.step hinv.sched hw⟩
  exact hrun.invariant hstep ⟨timedInv_boot ho lapic counting, flags_boot ho, idlesFirst_boot ho⟩

/-- Threads get a CPU in the order of the ring, and those that are made later do not delay one that waits: in every run
a thread of the ring is the current one of a CPU before the CPUs have had, together, more interrupts than threads wait
before it. -/
theorem waiting_thread_served {order : List (Fin n × Nat)} (ho : BootOrder order) {lapic : Fin n → TimerCpu}
    {counting : Fin n → Bool} {past trace : List (TimedEvent n)} {T T' : Timed n} {A C : List Nat} {t : Nat}
    (hpast : Trace TimedStep (timedBoot order lapic counting) past T)
    (hring : OnRing T.world.sched T.world.created (A ++ t :: C)) (hidle : ∀ d, t ≠ T.world.sched.idle d)
    (hrun : Trace TimedStep T trace T')
    (hcount : T.world.sched.waiting A < occurs TimedEvent.interrupts trace) : Serves T trace T' t := by
  obtain ⟨hinv, hflags, hidles⟩ := timed_reaches ho hpast
  have hbehind : Behind T.world t A := ⟨hinv.sched, hflags, ⟨C, hring⟩, hidles.before hring hidle⟩
  rcases hbehind.run hinv hrun with hserved | ⟨-, A', -, hle⟩
  · exact hserved
  · omega

end Fairness

theorem twoThreadsWait_ring : OnRing twoThreadsWait.sched twoThreadsWait.created [20, 30] where
  ring := ⟨by decide, .cons_cons ⟨by decide +kernel, fun _ => by decide +kernel⟩
    (.cons_cons ⟨by decide +kernel, fun _ => by decide +kernel⟩
      (.cons_cons ⟨by decide +kernel, fun h => absurd rfl h⟩ (.singleton _)))⟩
  last := .inl ⟨[10, 20], by decide⟩
  nonnull := by decide
  startIdle := ⟨soleCpu, by decide⟩
  idleOn := by decide
  idleApart := by decide
  idleBlocked := by decide
  enqueued := by decide +kernel
  created := by decide

/-- The timer starts the first of two threads, and once that has died the CPU takes the other one. -/
theorem second_thread_served : ∃ T : Timed 1,
    Trace TimedStep (soleTimed twoThreadsWait) [.timer soleCpu {}, .die soleCpu, .ipi soleCpu {}] T ∧
    Serves (soleTimed twoThreadsWait) [.timer soleCpu {}, .die soleCpu, .ipi soleCpu {}] T 30 := by
  have ho : BootOrder [(soleCpu, 10)] := ⟨by decide, by decide, by decide, by decide, by decide⟩
  obtain ⟨⟨s₁, r₁⟩, hs₁⟩ : ∃ p, schedTick 5 twoThreadsWait.sched soleCpu {} = some p :=
    Option.isSome_iff_exists.mp (by decide +kernel)
  have hthreads : (schedTick 5 twoThreadsWait.sched soleCpu {}).map
      (fun p => (p.1.current soleCpu, p.1.idle soleCpu)) = some (20, 10) := by decide +kernel
  have hnext : ((schedTick 5 twoThreadsWait.sched soleCpu {}).bind
      fun p => schedTick 5 (dequeueAndDie p.1 soleCpu) soleCpu {}).map (fun p => p.2) = some (some (30, {})) := by
    decide +kernel
  rw [hs₁] at hthreads hnext
  obtain ⟨hcur, hidle⟩ := Prod.mk.inj (Option.some.inj hthreads)
  obtain ⟨⟨s₂, r₂⟩, hs₂, rfl⟩ := Option.map_eq_some_iff.mp hnext
  have hne : s₁.current soleCpu ≠ s₁.idle soleCpu := by
    rw [hcur, hidle]
    decide
  have hfires : TimedStep (soleTimed twoThreadsWait) (.timer soleCpu {}) ((soleTimed twoThreadsWait).ticked soleCpu s₁) :=
    .timer rfl hs₁
  have hdies := TimedStep.die (T := (soleTimed twoThreadsWait).ticked soleCpu s₁) (c := soleCpu) hne
  have hrun := ((Trace.nil.snoc hfires).snoc hdies).snoc (.ipi (Function.update_self ..) hs₂)
  have hwaiting : twoThreadsWait.sched.waiting [20] = 1 := by decide +kernel
  exact ⟨_, hrun, waiting_thread_served ho twoThreadsWait_timed (A := [20]) (C := []) twoThreadsWait_ring (by decide) hrun
    (hwaiting.trans_lt (Nat.lt_succ_self 1))⟩

end Flan.Proc
