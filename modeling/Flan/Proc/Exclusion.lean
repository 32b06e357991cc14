import Flan.Proc.Sched

/-! No thread runs on two CPUs. The ring is followed from the idle threads, which
never leave it: a thread enqueued behind a removed `queue.end` is out of reach
for good, and a thread that has died is not on the ring any more. -/
namespace Flan.Proc
open Flan.Lib

/-- The machine together with the threads made so far and the dead ones. -/
structure World (n : Nat) where
  sched : Sched n
  created : List Nat
  dead : List Nat

inductive Event (n : Nat) where
  | tick (c : Fin n) (frame : InterruptFrame)
  | create (t cr3 : Nat) (frame : InterruptFrame)
  | die (c : Fin n)

section Runs
variable {n : Nat}

/-- One atomic step and the thread resumed by it, with the frame popped. An idle
thread only ever halts, so it is never the one that calls `dequeue_and_die`. -/
inductive Step : World n → Event n → Option (Nat × InterruptFrame) → World n → Prop
  | tick {w : World n} {c : Fin n} {frame : InterruptFrame} {fuel : Nat} {s' : Sched n}
      {r : Option (Nat × InterruptFrame)} (h : schedTick fuel w.sched c frame = some (s', r)) :
      Step w (.tick c frame) r { w with sched := s' }
  | create {w : World n} {t cr3 : Nat} {frame : InterruptFrame} (hz : t ≠ 0)
      (hnew : t ∉ w.created) :
      Step w (.create t cr3 frame) none
        { w with sched := createThread w.sched t cr3 frame, created := t :: w.created }
  | die {w : World n} {c : Fin n} (h : w.sched.current c ≠ w.sched.idle c) :
      Step w (.die c) none
        { w with sched := dequeueAndDie w.sched c, dead := w.sched.current c :: w.dead }

/-- A step with the thread resumed by it, as it is written to a trace. -/
def Logs (w : World n) (p : Event n × Option (Nat × InterruptFrame)) (w' : World n) : Prop := Step w p.1 p.2 w'

def Reaches (w w' : World n) : Prop :=
  Relation.ReflTransGen (fun v v' => ∃ e r, Step v e r v') w w'

/-- The order in which the CPUs come up, with the record each allocates. -/
structure BootOrder (order : List (Fin n × Nat)) : Prop where
  some_cpu : order ≠ []
  every_cpu : ∀ c, c ∈ order.map Prod.fst
  once : (order.map Prod.fst).Nodup
  distinct : (order.map Prod.snd).Nodup
  nonnull : 0 ∉ order.map Prod.snd

def blank : Sched n :=
  { queue := { threads := fun _ => {}, queueStart := 0, queueEnd := 0 }
    frames := fun _ => {}
    cpus := fun _ => {} }

def coresInit (order : List (Fin n × Nat)) (s : Sched n) : Sched n :=
  order.foldl (fun s p => coreInit s p.1 p.2) s

def boot (order : List (Fin n × Nat)) : World n :=
  { sched := coresInit order blank, created := order.map Prod.snd, dead := [] }

/-! ### The invariant -/

/-- What the links satisfy: the ring is closed from `queue.start`, an idle
thread, whose own `prev` may be stale; new threads go behind the last one unless
`queue.end` has been removed from the ring. -/
structure OnRing (s : Sched n) (created : List Nat) (xs : List Nat) : Prop where
  ring : Ring s.queue.next s.queue.prev (· ≠ s.queue.queueStart) s.queue.queueStart xs
  last : (∃ A, s.queue.queueStart :: xs = A ++ [s.queue.queueEnd]) ∨
    (s.queue.queueEnd ∉ s.queue.queueStart :: xs ∧ s.queue.queueEnd ≠ 0)
  nonnull : 0 ∉ s.queue.queueStart :: xs
  startIdle : ∃ c, s.queue.queueStart = s.idle c
  idleOn : ∀ c, s.idle c ∈ s.queue.queueStart :: xs
  idleApart : ∀ c d, s.idle c = s.idle d → c = d
  idleBlocked : ∀ c, (s.thread (s.idle c)).blocked = true
  enqueued : ∀ t ∈ s.queue.queueStart :: xs, (s.thread t).enqueued = true
  created : ∀ t ∈ s.queue.queueStart :: xs, t ∈ created

/-- What the CPUs and the locks satisfy. -/
structure Exclusive (w : World n) (xs : List Nat) : Prop where
  currentOn : ∀ c, w.sched.current c ∈ w.sched.queue.queueStart :: xs
  alone : ∀ c d, w.sched.current c = w.sched.current d → c = d
  ownIdle : ∀ c d, w.sched.current c = w.sched.idle d → c = d
  locked : ∀ t ∈ w.created, (∀ c, t ≠ w.sched.idle c) →
    ((w.sched.thread t).lock = 1 ↔ ∃ c, w.sched.current c = t)
  deadOff : ∀ t ∈ w.dead, t ∉ w.sched.queue.queueStart :: xs
  deadCreated : ∀ t ∈ w.dead, t ∈ w.created

def SchedInv (w : World n) : Prop := ∃ xs, OnRing w.sched w.created xs ∧ Exclusive w xs

theorem OnRing.same {s s' : Sched n} {created xs : List Nat} (h : OnRing s created xs)
    (hs : SameShape s s') : OnRing s' created xs := by
  obtain ⟨ring, last, nonnull, startIdle, idleOn, idleApart, idleBlocked, enqueued, made⟩ := h
  refine ⟨?_, ?_, ?_, ?_, ?_, ?_, ?_, ?_, ?_⟩
  · rw [hs.queueStart]
    exact ring.congr (fun x _ => hs.next x) fun x _ _ => hs.prev x
  · rwa [hs.queueStart, hs.queueEnd]
  · rwa [hs.queueStart]
  · simpa only [hs.queueStart, hs.idle] using startIdle
  · simpa only [hs.queueStart, hs.idle] using idleOn
  · simpa only [hs.idle] using idleApart
  · simpa only [hs.idle, hs.blocked] using idleBlocked
  · simpa only [hs.queueStart, hs.enqueued] using enqueued
  · simpa only [hs.queueStart] using made

theorem OnRing.next_mem {s : Sched n} {created xs : List Nat} (h : OnRing s created xs) {t : Nat}
    (ht : t ∈ s.queue.queueStart :: xs) : (s.thread t).next ∈ s.queue.queueStart :: xs :=
  (h.ring.mem_iff_iterate ht).mpr ⟨1, rfl⟩

theorem OnRing.ends_ne_zero {s : Sched n} {created xs : List Nat} (h : OnRing s created xs) :
    s.queue.queueStart ≠ 0 ∧ s.queue.queueEnd ≠ 0 := by
  refine ⟨fun hz => h.nonnull (by rw [← hz]; simp), ?_⟩
  rcases h.last with ⟨A, hA⟩ | hoff
  · intro hz
    exact h.nonnull (by rw [hA, ← hz]; simp)
  · exact hoff.2

/-! ### Steps -/

theorem OnRing.not_idle {s : Sched n} {created xs : List Nat} (h : OnRing s created xs) {t : Nat}
    (hb : (s.thread t).blocked = false) (c : Fin n) : t ≠ s.idle c := by
  rintro rfl
  rw [h.idleBlocked c] at hb
  cases hb

theorem Exclusive.stay {w : World n} {xs : List Nat} {c : Fin n} {frame : InterruptFrame}
    {s' : Sched n} (hx : Exclusive w xs) (hs : Stays w.sched c frame s') :
    Exclusive { w with sched := s' } xs := by
  obtain ⟨currentOn, alone, ownIdle, locked, deadOff, deadCreated⟩ := hx
  refine ⟨?_, ?_, ?_, ?_, ?_, deadCreated⟩
  · simpa only [hs.current, hs.shape.queueStart] using currentOn
  · simpa only [hs.current] using alone
  · simpa only [hs.current, hs.shape.idle] using ownIdle
  · simpa only [hs.current, hs.shape.idle, hs.lock] using locked
  · simpa only [hs.shape.queueStart] using deadOff

/-- The locks of the other threads still tell who is current, once `c` has let go of
its thread and taken `t`. -/
theorem Exclusive.locked_left {w : World n} {xs : List Nat} {c : Fin n} {t y : Nat} (hx : Exclusive w xs)
    (hy : y ∈ w.created) (hne : ∀ d, y ≠ w.sched.idle d) (hyt : y ≠ t) :
    (if y = w.sched.current c then spinlockRelease (w.sched.thread y).lock else (w.sched.thread y).lock) = 1 ↔
      ∃ d, (if d = c then t else w.sched.current d) = y := by
  have hold := hx.locked y hy hne
  by_cases hyc : y = w.sched.current c
  · rw [if_pos hyc, hold.mpr ⟨c, hyc.symm⟩]
    constructor
    · intro h
      cases h
    · rintro ⟨d, hd⟩
      by_cases hdc : d = c
      · rw [if_pos hdc] at hd
        exact absurd hd.symm hyt
      · rw [if_neg hdc] at hd
        exact absurd (hx.alone d c (hd.trans hyc)) hdc
  · rw [if_neg hyc, hold]
    constructor
    · rintro ⟨d, hd⟩
      have hdc : d ≠ c := fun h => hyc (by rw [← hd, h])
      exact ⟨d, by rw [if_neg hdc, hd]⟩
    · rintro ⟨d, hd⟩
      by_cases hdc : d = c
      · rw [if_pos hdc] at hd
        exact absurd hd.symm hyt
      · exact ⟨d, by rwa [if_neg hdc] at hd⟩

theorem Exclusive.switch {w : World n} {xs : List Nat} {c : Fin n} {frame : InterruptFrame}
    {t : Nat} {s' : Sched n} (hr : OnRing w.sched w.created xs) (hx : Exclusive w xs)
    (ht : t ∈ w.sched.queue.queueStart :: xs) (hs : Switches w.sched c frame t s') :
    Exclusive { w with sched := s' } xs := by
  obtain ⟨hblocked, _, hlock⟩ := hs.free
  have hidle := hr.not_idle hblocked
  -- The thread found was not current anywhere, since its lock was free.
  have hnowhere : ∀ d, w.sched.current d ≠ t := by
    intro d hd
    have hone := (hx.locked t (hr.created t ht) hidle).mpr ⟨d, hd⟩
    rw [hlock] at hone
    cases hone
  refine ⟨?_, ?_, ?_, ?_, ?_, hx.deadCreated⟩
  · intro d
    simp only [hs.current, hs.shape.queueStart]
    split
    · exact ht
    · exact hx.currentOn d
  · intro d e
    simp only [hs.current]
    split <;> split
    · intro _
      simp only [*]
    · exact fun h => absurd h.symm (hnowhere e)
    · exact fun h => absurd h (hnowhere d)
    · exact hx.alone d e
  · intro d e
    simp only [hs.current, hs.shape.idle]
    split
    · exact fun h => absurd h (hidle e)
    · exact hx.ownIdle d e
  · intro y hy hne
    simp only [hs.shape.idle] at hne
    simp only [hs.lock, hs.current]
    by_cases hyt : y = t
    · rw [if_pos hyt]
      exact ⟨fun _ => ⟨c, by rw [if_pos rfl, hyt]⟩, fun _ => rfl⟩
    · rw [if_neg hyt]
      exact hx.locked_left hy hne hyt
  · simpa only [hs.shape.queueStart] using hx.deadOff

theorem schedInv_tick {w : World n} {c : Fin n} {frame : InterruptFrame} {fuel : Nat}
    {s' : Sched n} {r : Option (Nat × InterruptFrame)} (hw : SchedInv w)
    (h : schedTick fuel w.sched c frame = some (s', r)) : SchedInv { w with sched := s' } := by
  obtain ⟨xs, hr, hx⟩ := hw
  rcases schedTick_spec (fun y hy => hr.next_mem hy) (hx.currentOn c) h with
    ⟨_, hs⟩ | ⟨t, ht, hs, _⟩
  · exact ⟨xs, hr.same hs.shape, hx.stay hs⟩
  · exact ⟨xs, hr.same hs.shape, hx.switch hr ht hs⟩

/-- With the ring of the new links, the rest of the invariant stays. -/
theorem OnRing.extend {s s' : Sched n} {created xs ys : List Nat} {t : Nat} {frame : InterruptFrame}
    (hr : OnRing s created xs) (hz : t ≠ 0) (hnew : t ∉ created) (hs : Created s t frame s')
    (hring : Ring s'.queue.next s'.queue.prev (· ≠ s.queue.queueStart) s.queue.queueStart ys)
    (hlast : (∃ A, s.queue.queueStart :: ys = A ++ [t]) ∨ t ∉ s.queue.queueStart :: ys)
    (hsub : ∀ x ∈ s.queue.queueStart :: xs, x ∈ s.queue.queueStart :: ys)
    (hsup : ∀ x ∈ s.queue.queueStart :: ys, x ∈ s.queue.queueStart :: xs ∨ x = t) : OnRing s' (t :: created) ys := by
  have hidle : ∀ d, s'.idle d = s.idle d := fun d => by rw [Sched.idle, hs.cpus]; rfl
  refine ⟨?_, ?_, ?_, ?_, ?_, ?_, ?_, ?_, ?_⟩
  · rwa [hs.queueStart]
  · rw [hs.queueStart, hs.queueEnd]
    exact hlast.imp id fun h => ⟨h, hz⟩
  · rw [hs.queueStart]
    intro h0
    rcases hsup 0 h0 with h | h
    · exact hr.nonnull h
    · exact hz h.symm
  · simpa only [hs.queueStart, hidle] using hr.startIdle
  · intro c
    rw [hs.queueStart, hidle]
    exact hsub _ (hr.idleOn c)
  · simpa only [hidle] using hr.idleApart
  · intro c
    have hold : s.idle c ≠ t := fun h => hnew (h ▸ hr.created _ (hr.idleOn c))
    rw [hidle, hs.blocked, if_neg hold]
    exact hr.idleBlocked c
  · intro x hx
    rw [hs.queueStart] at hx
    rw [hs.enqueued]
    rcases hsup x hx with h | h
    · rw [hr.enqueued x h, ite_self]
    · rw [if_pos h]
  · intro x hx
    rw [hs.queueStart] at hx
    rcases hsup x hx with h | h
    · exact List.mem_cons_of_mem t (hr.created x h)
    · rw [h]
      exact List.mem_cons_self

/-- The new thread ends the ring, or is lost behind a removed end. -/
theorem OnRing.create {s s' : Sched n} {created xs : List Nat} {t : Nat} {frame : InterruptFrame}
    (hr : OnRing s created xs) (hz : t ≠ 0) (hnew : t ∉ created) (hs : Created s t frame s') :
    ∃ ys, OnRing s' (t :: created) ys ∧ xs <+: ys ∧
      ∀ x ∈ s.queue.queueStart :: ys, x ∈ s.queue.queueStart :: xs ∨ x = t := by
  have hnot : t ∉ s.queue.queueStart :: xs := fun h => hnew (hr.created t h)
  rcases hr.last with hlast | ⟨hoff, _⟩
  · have hsub : ∀ x ∈ s.queue.queueStart :: xs, x ∈ s.queue.queueStart :: (xs ++ [t]) := by
      intro x hx
      rw [← List.cons_append]
      exact List.mem_append_left [t] hx
    have hsup : ∀ x ∈ s.queue.queueStart :: (xs ++ [t]), x ∈ s.queue.queueStart :: xs ∨ x = t := by
      intro x hx
      rw [← List.cons_append] at hx
      exact (List.mem_append.mp hx).imp id List.mem_singleton.mp
    refine ⟨xs ++ [t], hr.extend hz hnew hs ?_ (.inl ⟨s.queue.queueStart :: xs, rfl⟩) hsub hsup,
      List.prefix_append xs [t], hsup⟩
    exact (linkAtEnd_ring hr.ring hlast hnot).congr (fun x _ => hs.next x) fun x _ _ => hs.prev x
  · have hold : ∀ x ∈ s.queue.queueStart :: xs, x ≠ t := fun x hx h => hnot (h ▸ hx)
    refine ⟨xs, hr.extend hz hnew hs ?_ (.inr hnot) (fun _ h => h) (fun _ h => .inl h),
      List.prefix_rfl, fun _ h => .inl h⟩
    refine hr.ring.congr ?_ ?_
    · intro x hx
      rw [hs.next, linkAtEnd_next, if_neg (hold x hx), if_neg (fun h : x = s.queue.queueEnd => hoff (h ▸ hx))]
    · intro x hx hb
      rw [hs.prev, linkAtEnd_prev, if_neg hb, if_neg (hold x hx)]

theorem schedInv_create {w : World n} {t cr3 : Nat} {frame : InterruptFrame} (hw : SchedInv w)
    (hz : t ≠ 0) (hnew : t ∉ w.created) : SchedInv
      { w with sched := createThread w.sched t cr3 frame, created := t :: w.created } := by
  obtain ⟨xs, hr, hx⟩ := hw
  have hs := createThread_spec (t := t) cr3 frame hr.ends_ne_zero.1 hr.ends_ne_zero.2
  obtain ⟨ys, hring, hpre, hsup⟩ := hr.create hz hnew hs
  have hsub := List.cons_subset_cons w.sched.queue.queueStart hpre.subset
  have hcur : ∀ d, (createThread w.sched t cr3 frame).current d = w.sched.current d := fun _ => rfl
  have hidle : ∀ d, (createThread w.sched t cr3 frame).idle d = w.sched.idle d := fun _ => rfl
  refine ⟨ys, hring, ⟨?_, hx.alone, hx.ownIdle, ?_, ?_, ?_⟩⟩
  · intro c
    rw [hs.queueStart, hcur]
    exact hsub (hx.currentOn c)
  · intro y hy hne
    simp only [hcur, hs.lock]
    rcases List.mem_cons.mp hy with rfl | hy
    · rw [if_pos rfl]
      constructor
      · intro h
        cases h
      · rintro ⟨d, rfl⟩
        exact absurd (hr.created _ (hx.currentOn d)) hnew
    · rw [if_neg (fun h : y = t => hnew (h ▸ hy))]
      exact hx.locked y hy hne
  · intro y hy hmem
    rw [hs.queueStart] at hmem
    rcases hsup y hmem with h | rfl
    · exact hx.deadOff y hy h
    · exact hnew (hx.deadCreated y hy)
  · exact fun y hy => List.mem_cons_of_mem t (hx.deadCreated y hy)

/-- The thread that dies leaves the ring; a removed end is never reached again. -/
theorem OnRing.die {s s' : Sched n} {created U V : List Nat} {c : Fin n}
    (hr : OnRing s created (U ++ s.current c :: V)) (hidle : ∀ d, s.current c ≠ s.idle d)
    (hs : Died s c s') : OnRing s' created (U ++ V) := by
  have hperm := perm_insert s.queue.queueStart (s.current c) U V
  obtain ⟨hnot, _⟩ := List.nodup_cons.mp (hperm.nodup_iff.mp hr.ring.nodup)
  have hin : ∀ x ∈ s.queue.queueStart :: (U ++ V),
      x ∈ s.queue.queueStart :: (U ++ s.current c :: V) :=
    fun x hx => hperm.mem_iff.mpr (List.mem_cons_of_mem _ hx)
  have hback : s.current c ≠ s.queue.queueStart := by
    obtain ⟨d, hd⟩ := hr.startIdle
    rw [hd]
    exact hidle d
  refine ⟨?_, ?_, ?_, ?_, ?_, ?_, ?_, ?_, ?_⟩
  · rw [hs.queueStart]
    exact (unlink_ring hr.ring hback).congr (fun x _ => hs.next x) fun x _ _ => hs.prev x
  · rw [hs.queueStart, hs.queueEnd]
    rcases hr.last with hlast | ⟨hoff, hz⟩
    · by_cases hend : s.current c = s.queue.queueEnd
      · exact .inr ⟨hend ▸ hnot, hr.ends_ne_zero.2⟩
      · exact .inl (last_remove hlast hend)
    · exact .inr ⟨fun h => hoff (hin _ h), hz⟩
  · rw [hs.queueStart]
    exact fun h => hr.nonnull (hin 0 h)
  · simpa only [hs.queueStart, hs.idle] using hr.startIdle
  · intro d
    rw [hs.queueStart, hs.idle]
    exact (List.mem_cons.mp (hperm.mem_iff.mp (hr.idleOn d))).resolve_left fun h => hidle d h.symm
  · simpa only [hs.idle] using hr.idleApart
  · simpa only [hs.idle, hs.blocked] using hr.idleBlocked
  · intro x hx
    rw [hs.queueStart] at hx
    rw [hs.enqueued, if_neg (fun h : x = s.current c => hnot (h ▸ hx))]
    exact hr.enqueued x (hin x hx)
  · intro x hx
    rw [hs.queueStart] at hx
    exact hr.created x (hin x hx)

theorem OnRing.erase {s s' : Sched n} {created xs : List Nat} {c : Fin n} (hr : OnRing s created xs)
    (hmem : s.current c ∈ xs) (hidle : ∀ d, s.current c ≠ s.idle d) (hs : Died s c s') :
    OnRing s' created (xs.erase (s.current c)) := by
  obtain ⟨U, V, rfl⟩ := List.append_of_mem hmem
  have hnd := (List.nodup_cons.mp hr.ring.nodup).2
  have hU : s.current c ∉ U := fun hU => (List.nodup_append.mp hnd).2.2 _ hU _ List.mem_cons_self rfl
  rw [List.erase_append_right _ hU, List.erase_cons_head]
  exact hr.die hidle hs

/-- A CPU that does not run its idle thread runs none of the idle threads. -/
theorem Exclusive.not_idle {w : World n} {xs : List Nat} {c : Fin n} (hx : Exclusive w xs)
    (h : w.sched.current c ≠ w.sched.idle c) (d : Fin n) : w.sched.current c ≠ w.sched.idle d := by
  intro hd
  rw [hd, hx.ownIdle c d hd] at h
  exact h rfl

theorem OnRing.mem_of_not_idle {s : Sched n} {created xs : List Nat} {t : Nat} (hr : OnRing s created xs)
    (ht : t ∈ s.queue.queueStart :: xs) (h : ∀ d, t ≠ s.idle d) : t ∈ xs := by
  obtain ⟨d, hd⟩ := hr.startIdle
  exact (List.mem_cons.mp ht).resolve_left fun heq => h d (heq.trans hd)

theorem schedInv_die {w : World n} {c : Fin n} (hw : SchedInv w)
    (h : w.sched.current c ≠ w.sched.idle c) : SchedInv
      { w with sched := dequeueAndDie w.sched c, dead := w.sched.current c :: w.dead } := by
  obtain ⟨xs, hr, hx⟩ := hw
  have hidle := hx.not_idle h
  have hs := dequeueAndDie_spec (hr.enqueued _ (hx.currentOn c))
  obtain ⟨U, V, rfl⟩ := List.append_of_mem (hr.mem_of_not_idle (hx.currentOn c) hidle)
  have hring := hr.die hidle hs
  have hperm := perm_insert w.sched.queue.queueStart (w.sched.current c) U V
  obtain ⟨hnot, _⟩ := List.nodup_cons.mp (hperm.nodup_iff.mp hr.ring.nodup)
  -- Every other thread that is current stays where it was.
  have hothers : ∀ d, d ≠ c → w.sched.current d ≠ w.sched.current c :=
    fun d hd he => hd (hx.alone d c he)
  refine ⟨U ++ V, hring, ⟨?_, ?_, ?_, ?_, ?_, ?_⟩⟩
  · intro d
    rw [hs.queueStart, hs.current]
    split
    · rw [← hs.idle c, ← hs.queueStart]
      exact hring.idleOn c
    · rename_i hd
      exact (List.mem_cons.mp (hperm.mem_iff.mp (hx.currentOn d))).resolve_left (hothers d hd)
  · intro d e
    rw [hs.current, hs.current]
    split <;> split
    · intro _
      simp only [*]
    · exact fun he => absurd (hx.ownIdle e c he.symm) ‹e ≠ c›
    · exact fun he => absurd (hx.ownIdle d c he) ‹d ≠ c›
    · exact hx.alone d e
  · intro d e
    rw [hs.current, hs.idle]
    split
    · intro he
      rw [‹d = c›]
      exact hr.idleApart c e he
    · exact hx.ownIdle d e
  · intro y hy hne
    simp only [hs.idle] at hne
    simp only [hs.lock, hs.current]
    exact hx.locked_left hy hne (hne c)
  · intro y hy hyr
    rw [hs.queueStart] at hyr
    rcases List.mem_cons.mp hy with rfl | hy
    · exact hnot hyr
    · exact hx.deadOff y hy (hperm.mem_iff.mpr (List.mem_cons_of_mem _ hyr))
  · intro y hy
    rcases List.mem_cons.mp hy with rfl | hy
    · exact hr.created _ (hx.currentOn c)
    · exact hx.deadCreated y hy

theorem schedInv_step {w w' : World n} {e : Event n} {r : Option (Nat × InterruptFrame)}
    (hw : SchedInv w) (h : Step w e r w') : SchedInv w' := by
  cases h with
  | tick h => exact schedInv_tick hw h
  | create hz hnew => exact schedInv_create hw hz hnew
  | die h => exact schedInv_die hw h

/-! ### Boot -/

/-- After the CPUs of `order`, its records form the queue, each idle on its CPU. -/
structure Booted (s : Sched n) (order : List (Fin n × Nat)) : Prop where
  queue : (order = [] ∧ Drained s.queue ∧ s.queue.queueStart = 0) ∨
    ∃ xs, Holds s.queue xs ∧ s.queue.queueStart :: xs = order.map Prod.snd
  cpus : ∀ p ∈ order, s.current p.1 = p.2 ∧ s.idle p.1 = p.2 ∧ (s.thread p.2).blocked = true

theorem Holds.record {q : RunQueue} {xs : List Nat} (hq : Holds q xs) {t : Nat} {r : Thread}
    (ht : t ∉ q.queueStart :: xs) (hr : r.enqueued = false) :
    Holds (q.modify t fun _ => r) xs := by
  have hsame : ∀ x, x ≠ t → (q.modify t fun _ => r).threads x = q.threads x :=
    fun x hx => Function.update_of_ne hx _ _
  have hne : ∀ x ∈ q.queueStart :: xs, x ≠ t := fun x hx h => ht (h ▸ hx)
  refine ⟨?_, hq.last, ?_, hq.nonnull⟩
  · refine hq.ring.congr ?_ ?_
    · exact fun x hx => congrArg Thread.next (hsame x (hne x hx))
    · exact fun x hx _ => congrArg Thread.prev (hsame x (hne x hx))
  · intro x
    by_cases hx : x = t
    · have hoff : (q.modify t fun _ => r).enqueued x = false := by
        simpa [RunQueue.enqueued, RunQueue.modify, hx] using hr
      rw [hoff, hx]
      exact ⟨fun h => absurd h (by simp), fun h => absurd h ht⟩
    · rw [RunQueue.enqueued, hsame x hx]
      exact hq.members x

theorem booted_coreInit {s : Sched n} {order : List (Fin n × Nat)} {c : Fin n} {t : Nat}
    (hb : Booted s order) (hc : c ∉ order.map Prod.fst) (ht : t ∉ order.map Prod.snd)
    (hz : t ≠ 0) : Booted (coreInit s c t) (order ++ [(c, t)]) := by
  have hfresh : (s.queue.modify t fun _ => { blocked := true }).enqueued t = false := by
    simp [RunQueue.enqueued, RunQueue.modify]
  refine ⟨.inr ?_, ?_⟩
  · have hqueue : (coreInit s c t).queue =
        schedEnqueueThread (s.queue.modify t fun _ => { blocked := true }) t := rfl
    rw [hqueue]
    rcases hb.queue with ⟨rfl, hd, hstart⟩ | ⟨xs, hh, hxs⟩
    · have hdrained : Drained (s.queue.modify t fun _ => { blocked := true }) := by
        refine ⟨?_, hd.ends⟩
        intro x
        by_cases hx : x = t
        · rw [hx, hfresh]
        · rw [RunQueue.enqueued, modify_threads, if_neg hx]
          exact hd.empty x
      refine ⟨[], hdrained.enqueue hz (.inl hstart), ?_⟩
      rw [enqueue_eq hfresh, linkAtEnd_queueStart, openQueue, if_pos (.inl hstart)]
      rfl
    · have hh' := hh.record (r := { blocked := true }) (hxs ▸ ht) rfl
      refine ⟨xs ++ [t], hh'.enqueue hz hfresh, ?_⟩
      rw [enqueue_eq hfresh, openQueue_eq t hh'.ends_ne_zero.1 hh'.ends_ne_zero.2,
        linkAtEnd_queueStart, List.map_append, ← hxs]
      rfl
  · have hblocked : ∀ x, ((coreInit s c t).thread x).blocked =
        if x = t then true else (s.thread x).blocked := by
      intro x
      have hlink : ((coreInit s c t).thread x).blocked =
          ((openQueue (s.queue.modify t fun _ => { blocked := true }) t).threads x).blocked := by
        rw [← linkAtEnd_field Thread.blocked _ t x (fun _ _ => rfl) (fun _ _ => rfl) fun _ _ => rfl,
          ← enqueue_eq hfresh]
        rfl
      have hopen : ∀ q : RunQueue, (openQueue q t).threads = q.threads := by
        intro q
        unfold openQueue
        split <;> rfl
      rw [hlink, hopen, modify_threads, apply_ite Thread.blocked]
      rfl
    have hcpus : ∀ d, (coreInit s c t).cpus d = if d = c then
        { s.cpus c with idleThread := t, currentThread := t } else s.cpus d :=
      fun d => by simp only [coreInit, modifyCpu_cpus, modify_cpus]
    intro p hp
    rw [hblocked, Sched.current, Sched.idle, hcpus]
    rcases List.mem_append.mp hp with hp | hp
    · have hpc : p.1 ≠ c := fun h => hc (h ▸ List.mem_map_of_mem hp)
      have hpt : p.2 ≠ t := fun h => ht (h ▸ List.mem_map_of_mem hp)
      rw [if_neg hpc, if_neg hpt]
      exact hb.cpus p hp
    · rw [List.mem_singleton.mp hp, if_pos rfl, if_pos rfl]
      exact ⟨rfl, rfl, rfl⟩

theorem booted_coresInit (order done : List (Fin n × Nat)) (s : Sched n) (hb : Booted s done)
    (hfst : ((done ++ order).map Prod.fst).Nodup) (hsnd : ((done ++ order).map Prod.snd).Nodup)
    (hz : 0 ∉ order.map Prod.snd) : Booted (coresInit order s) (done ++ order) := by
  induction order generalizing done s with
  | nil => simpa [coresInit] using hb
  | cons p order ih =>
      have hdone : (done ++ [p]) ++ order = done ++ p :: order := by simp
      rw [← hdone] at hfst hsnd ⊢
      have hc : p.1 ∉ done.map Prod.fst := by
        rw [List.map_append, List.map_append, List.nodup_append] at hfst
        exact (List.nodup_append.mp hfst.1).2.2 |> fun h hm => h p.1 hm p.1 (by simp) rfl
      have ht : p.2 ∉ done.map Prod.snd := by
        rw [List.map_append, List.map_append, List.nodup_append] at hsnd
        exact (List.nodup_append.mp hsnd.1).2.2 |> fun h hm => h p.2 hm p.2 (by simp) rfl
      have hne : p.2 ≠ 0 := fun h => hz (by simp [h])
      exact ih (done ++ [p]) (coreInit s p.1 p.2) (booted_coreInit hb hc ht hne) hfst hsnd
        fun h => hz (List.mem_cons_of_mem _ h)

/-- Each CPU has its own record, the current and idle one. -/
structure OwnThreads (s : Sched n) (order : List (Fin n × Nat)) : Prop where
  current : ∀ c, s.current c = s.idle c
  mem : ∀ c, s.idle c ∈ order.map Prod.snd
  apart : ∀ c d, s.idle c = s.idle d → c = d
  blocked : ∀ c, (s.thread (s.idle c)).blocked = true

theorem Booted.own {s : Sched n} {order : List (Fin n × Nat)} (hb : Booted s order) (ho : BootOrder order) :
    OwnThreads s order := by
  have hcpu : ∀ c, ∃ t, (c, t) ∈ order ∧ s.current c = t ∧ s.idle c = t ∧ (s.thread t).blocked = true := by
    intro c
    obtain ⟨p, hp, rfl⟩ := List.mem_map.mp (ho.every_cpu c)
    exact ⟨p.2, hp, hb.cpus p hp⟩
  constructor
  · intro c
    obtain ⟨t, -, hcurrent, hidle, -⟩ := hcpu c
    rw [hcurrent, hidle]
  · intro c
    obtain ⟨t, ht, -, hidle, -⟩ := hcpu c
    rw [hidle]
    exact List.mem_map.mpr ⟨_, ht, rfl⟩
  · intro c d he
    obtain ⟨t, ht, -, hc, -⟩ := hcpu c
    obtain ⟨u, hu, -, hd, -⟩ := hcpu d
    rw [hc, hd] at he
    subst he
    exact congrArg Prod.fst (List.inj_on_of_nodup_map ho.distinct ht hu rfl)
  · intro c
    obtain ⟨t, -, -, hidle, hblocked⟩ := hcpu c
    rw [hidle, hblocked]

theorem booted_boot {order : List (Fin n × Nat)} (ho : BootOrder order) : Booted (boot order).sched order :=
  booted_coresInit order [] blank ⟨.inl ⟨rfl, ⟨fun _ => rfl, rfl⟩, rfl⟩, fun p hp => absurd hp (by simp)⟩ ho.once
    ho.distinct ho.nonnull

theorem schedInv_boot {order : List (Fin n × Nat)} (ho : BootOrder order) :
    SchedInv (boot order) := by
  have hbooted := booted_boot ho
  have hown : OwnThreads (boot order).sched order := hbooted.own ho
  obtain ⟨xs, hh, hxs⟩ := hbooted.queue.resolve_left fun h => ho.some_cpu h.1
  have hstart : (boot order).sched.queue.queueStart :: xs = order.map Prod.snd := hxs
  refine ⟨xs, ⟨?_, .inl hh.last, hh.nonnull, ?_, ?_, hown.apart, hown.blocked, ?_, ?_⟩, ⟨?_, ?_, ?_, ?_, ?_, ?_⟩⟩
  · exact ⟨hh.ring.nodup, hh.ring.chain.imp fun x y hl => ⟨hl.1, fun _ => hl.2 trivial⟩⟩
  · have hfirst : (boot order).sched.queue.queueStart ∈ order.map Prod.snd := by
      rw [← hstart]
      exact List.mem_cons_self
    obtain ⟨p, hp, hpt⟩ := List.mem_map.mp hfirst
    exact ⟨p.1, hpt.symm.trans (hbooted.cpus p hp).2.1.symm⟩
  · rw [hstart]
    exact hown.mem
  · exact fun t ht => (hh.members t).mpr ht
  · rw [hstart]
    exact fun _ h => h
  · intro c
    rw [hstart, hown.current]
    exact hown.mem c
  · intro c d he
    rw [hown.current, hown.current] at he
    exact hown.apart c d he
  · intro c d he
    rw [hown.current] at he
    exact hown.apart c d he
  · intro t ht hne
    obtain ⟨p, hp, rfl⟩ := List.mem_map.mp ht
    exact absurd (hbooted.cpus p hp).2.1.symm (hne p.1)
  · exact fun t ht => absurd ht (by simp [boot])
  · exact fun t ht => absurd ht (by simp [boot])

/-! ### Every run -/

theorem schedInv_reaches {order : List (Fin n × Nat)} (ho : BootOrder order) {w : World n}
    (hw : Reaches (boot order) w) : SchedInv w :=
  reflTransGen_invariant (fun _ _ hv ⟨_, _, hs⟩ => schedInv_step hv hs) (schedInv_boot ho) hw

/-- A scheduler interrupt always comes to an end. -/
theorem schedTick_total {order : List (Fin n × Nat)} (ho : BootOrder order) {w : World n}
    (hw : Reaches (boot order) w) (c : Fin n) (frame : InterruptFrame) :
    ∃ w' r, Step w (.tick c frame) r w' := by
  obtain ⟨xs, hr, hx⟩ := schedInv_reaches ho hw
  have hturn := hr.ring.iterate_length (hx.currentOn c)
  rw [List.length_cons] at hturn
  obtain ⟨⟨s', r⟩, hs⟩ := schedTick_returns w.sched c frame hturn (Nat.lt_succ_self _)
  exact ⟨{ w with sched := s' }, r, .tick hs⟩

/-- In every state reached, a thread that is not an idle one is current on at
most one CPU and locked exactly while it is, and no dead thread is current. -/
theorem thread_on_one_cpu {order : List (Fin n × Nat)} (ho : BootOrder order) {w : World n}
    (hw : Reaches (boot order) w) :
    (∀ t ∈ w.created, (∀ c, t ≠ w.sched.idle c) →
      (∀ c d, w.sched.current c = t → w.sched.current d = t → c = d) ∧
      ((w.sched.thread t).lock = 1 ↔ ∃ c, w.sched.current c = t)) ∧
    ∀ t ∈ w.dead, ∀ c, w.sched.current c ≠ t := by
  obtain ⟨xs, hr, hx⟩ := schedInv_reaches ho hw
  refine ⟨?_, ?_⟩
  · intro t ht hne
    refine ⟨?_, hx.locked t ht hne⟩
    intro c d hc hd
    exact hx.alone c d (hc.trans hd.symm)
  · rintro t ht c rfl
    exact hx.deadOff _ ht (hx.currentOn c)

end Runs

theorem boot_order_two_cpus : BootOrder [((0 : Fin 2), 10), (1, 11)] :=
  ⟨by decide, by decide, by decide, by decide, by decide⟩

/-- Two CPUs and one thread: the first tick takes it to CPU 0, and CPU 1 stays idle. -/
theorem first_tick_takes_new_thread : ∃ w : World 2,
    Reaches (boot [(0, 10), (1, 11)]) w ∧ w.sched.current 0 = 20 ∧
    (w.sched.thread 20).lock = 1 ∧ w.sched.current 1 ≠ 20 := by
  let s := createThread (boot [((0 : Fin 2), 10), (1, 11)]).sched 20 0 {}
  obtain ⟨⟨s', r⟩, h⟩ : ∃ p, schedTick 5 s 0 {} = some p :=
    Option.isSome_iff_exists.mp (by decide)
  let w : World 2 := { sched := s', created := [20, 10, 11], dead := [] }
  have hreach : Reaches (boot [(0, 10), (1, 11)]) w :=
    .tail (.single ⟨.create 20 0 {}, none, .create (by decide) (by decide)⟩)
      ⟨.tick 0 {}, r, Step.tick (w := { sched := s, created := [20, 10, 11], dead := [] }) h⟩
  have hcur : (schedTick 5 s 0 {}).map (fun p => p.1.current 0) = some 20 := by decide
  have hidle : (schedTick 5 s 0 {}).map (fun p => (p.1.idle 0, p.1.idle 1)) = some (10, 11) := by
    decide
  rw [h] at hcur hidle
  have h0 : w.sched.current 0 = 20 := Option.some.inj hcur
  have hi : (w.sched.idle 0, w.sched.idle 1) = (10, 11) := Option.some.inj hidle
  have hnot : ∀ c, 20 ≠ w.sched.idle c := by
    rw [Fin.forall_fin_two, (Prod.mk.inj hi).1, (Prod.mk.inj hi).2]
    decide
  obtain ⟨hone, hlock⟩ :=
    (thread_on_one_cpu boot_order_two_cpus hreach).1 20 (by simp [w]) hnot
  refine ⟨w, hreach, h0, hlock.mpr ⟨0, h0⟩, ?_⟩
  intro h1
  exact absurd (hone 0 1 h0 h1) (by decide)

end Flan.Proc
