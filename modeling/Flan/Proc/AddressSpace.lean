import Flan.Proc.Exclusion

/-! The page map a thread runs in: `sched_vector` loads `cr3` from the thread it switches to. -/
namespace Flan.Proc
open Flan.Lib

section AddressSpace
variable {n : Nat}

/-- Every thread keeps the page map it was made with, and a CPU that runs a thread has it loaded. -/
structure Mapped (trace : List (Event n × Option (Nat × InterruptFrame))) (w : World n) : Prop where
  sched : SchedInv w
  made : ∀ t ∈ w.created, (∀ c, t ≠ w.sched.idle c) → ∃ cr3 frame r, (.create t cr3 frame, r) ∈ trace
  keeps : ∀ t cr3 frame r, (.create t cr3 frame, r) ∈ trace → t ∈ w.created ∧ (w.sched.thread t).cr3 = cr3
  loaded : ∀ c, w.sched.current c ≠ w.sched.idle c → (w.sched.cpus c).cr3 = (w.sched.thread (w.sched.current c)).cr3

section Steps
variable {trace : List (Event n × Option (Nat × InterruptFrame))} {w : World n} {c : Fin n} {frame : InterruptFrame}

/-- A step that makes no thread and keeps the page maps and the idle threads. -/
theorem Mapped.keep {e : Event n} {r : Option (Nat × InterruptFrame)} {w' : World n} (h : Mapped trace w)
    (he : ∀ t cr3 f, e ≠ .create t cr3 f) (hinv : SchedInv w') (hcreated : w'.created = w.created)
    (hidle : ∀ d, w'.sched.idle d = w.sched.idle d)
    (hcr3 : ∀ x, (w'.sched.thread x).cr3 = (w.sched.thread x).cr3)
    (hloaded : ∀ d, w'.sched.current d ≠ w'.sched.idle d →
      (w'.sched.cpus d).cr3 = (w.sched.thread (w'.sched.current d)).cr3) : Mapped (trace ++ [(e, r)]) w' := by
  refine ⟨hinv, ?_, ?_, ?_⟩
  · intro t ht hne
    rw [hcreated] at ht
    simp only [hidle] at hne
    obtain ⟨cr3, f, r', hmem⟩ := h.made t ht hne
    exact ⟨cr3, f, r', List.mem_append_left _ hmem⟩
  · intro t cr3 f r' hmem
    rw [hcreated, hcr3]
    rcases List.mem_append.mp hmem with hmem | hmem
    · exact h.keeps t cr3 f r' hmem
    · exact absurd (Prod.mk.inj (List.mem_singleton.mp hmem)).1.symm (he t cr3 f)
  · intro d hd
    rw [hcr3]
    exact hloaded d hd

theorem Mapped.tick {fuel : Nat} {s' : Sched n} {r : Option (Nat × InterruptFrame)} (h : Mapped trace w)
    (hs : schedTick fuel w.sched c frame = some (s', r)) :
    Mapped (trace ++ [(.tick c frame, r)]) { w with sched := s' } := by
  obtain ⟨hothers, -, hstay, htake⟩ := schedTick_cpus hs
  have hcr3 := schedTick_field Thread.cr3 (fun _ _ _ => rfl) (fun _ _ _ => rfl) hs
  have hidle := schedTick_idle hs
  refine h.keep (fun _ _ _ heq => by cases heq) (schedInv_tick h.sched hs) rfl hidle hcr3 fun d hd => ?_
  dsimp only at hd ⊢
  by_cases hdc : d = c
  · subst hdc
    rcases schedTick_spec (P := fun _ => True) (fun _ _ => trivial) trivial hs with ⟨hr, hs'⟩ | ⟨t, -, hs', hr⟩
    · rw [hs'.current, hidle] at hd
      rw [hstay hr, hs'.current]
      exact h.loaded d hd
    · rw [htake _ _ hr, hs'.current, if_pos rfl]
  · have hcpu := hothers d hdc
    rw [Sched.current, Sched.idle, hcpu] at hd
    rw [Sched.current, hcpu]
    exact h.loaded d hd

theorem Mapped.die (h : Mapped trace w) (hne : w.sched.current c ≠ w.sched.idle c) :
    Mapped (trace ++ [(.die c, none)])
      { w with sched := dequeueAndDie w.sched c, dead := w.sched.current c :: w.dead } := by
  obtain ⟨xs, hr, hx⟩ := h.sched
  have henq := hr.enqueued _ (hx.currentOn c)
  have hs := dequeueAndDie_spec henq
  refine h.keep (fun _ _ _ heq => by cases heq) (schedInv_die h.sched hne) rfl hs.idle
    (dequeueAndDie_field Thread.cr3 (fun _ _ => rfl) (fun _ _ => rfl) (fun _ _ _ _ => rfl) henq) fun d hd => ?_
  dsimp only at hd ⊢
  rw [hs.current, hs.idle] at hd
  rw [hs.current]
  by_cases hdc : d = c
  · rw [if_pos hdc, hdc] at hd
    exact absurd rfl hd
  · rw [if_neg hdc] at hd ⊢
    have hcpu : (dequeueAndDie w.sched c).cpus d = w.sched.cpus d := by
      rw [dequeueAndDie, modifyCpu_cpus, if_neg hdc]
    rw [hcpu]
    exact h.loaded d hd

theorem Mapped.create {t cr3 : Nat} (h : Mapped trace w) (hz : t ≠ 0) (hnew : t ∉ w.created) :
    Mapped (trace ++ [(.create t cr3 frame, none)])
      { w with sched := createThread w.sched t cr3 frame, created := t :: w.created } := by
  obtain ⟨xs, hr, hx⟩ := h.sched
  have hcr3 := createThread_field (t := t) Thread.cr3 (fun _ _ => rfl) (fun _ _ => rfl) (fun _ _ => rfl) cr3 frame
    hr.ends_ne_zero.1 hr.ends_ne_zero.2
  refine ⟨schedInv_create h.sched hz hnew, ?_, ?_, ?_⟩
  · intro y hy hidle
    rcases List.mem_cons.mp hy with rfl | hy
    · exact ⟨cr3, frame, none, List.mem_append_right _ List.mem_cons_self⟩
    · obtain ⟨cr3', f, r, hmem⟩ := h.made y hy hidle
      exact ⟨cr3', f, r, List.mem_append_left _ hmem⟩
  · intro y cr3' f r hmem
    dsimp only
    rcases List.mem_append.mp hmem with hmem | hmem
    · obtain ⟨hold, hkept⟩ := h.keeps y cr3' f r hmem
      rw [hcr3, if_neg fun heq : y = t => hnew (heq ▸ hold)]
      exact ⟨List.mem_cons_of_mem t hold, hkept⟩
    · obtain ⟨heq, -⟩ := Prod.mk.inj (List.mem_singleton.mp hmem)
      obtain ⟨rfl, rfl, -⟩ := Event.create.inj heq
      rw [hcr3, if_pos rfl]
      exact ⟨List.mem_cons_self, rfl⟩
  · intro d hd
    have hold : w.sched.current d ≠ t := fun heq => hnew (heq ▸ hr.created _ (hx.currentOn d))
    refine (h.loaded d hd).trans ?_
    exact ((hcr3 _).trans (if_neg hold)).symm

end Steps

theorem mapped_boot {order : List (Fin n × Nat)} (ho : BootOrder order) : Mapped [] (boot order) := by
  have hbooted := booted_boot ho
  refine ⟨schedInv_boot ho, ?_, ?_, ?_⟩
  · intro t ht hne
    obtain ⟨p, hp, rfl⟩ := List.mem_map.mp ht
    exact absurd (hbooted.cpus p hp).2.1.symm (hne p.1)
  · exact fun t cr3 f r hmem => absurd hmem List.not_mem_nil
  · exact fun c hc => absurd ((hbooted.own ho).current c) hc

/-- In every run, while a thread is current on a CPU, the page map loaded there is the one the thread was made with,
whichever CPUs it has been on and whatever threads have come and gone. -/
theorem thread_runs_in_own_pagemap {order : List (Fin n × Nat)} (ho : BootOrder order)
    {trace : List (Event n × Option (Nat × InterruptFrame))} {w : World n} (hrun : Trace Logs (boot order) trace w)
    (c : Fin n) (hne : w.sched.current c ≠ w.sched.idle c) :
    (∃ cr3 frame r, (.create (w.sched.current c) cr3 frame, r) ∈ trace) ∧
      ∀ cr3 frame r, (.create (w.sched.current c) cr3 frame, r) ∈ trace → (w.sched.cpus c).cr3 = cr3 := by
  have hmapped : Mapped trace w := by
    clear hne
    induction hrun with
    | nil => exact mapped_boot ho
    | @snoc trace p v u _ hlog ih =>
        obtain ⟨e, r⟩ := p
        have hstep : Step v e r u := hlog
        cases hstep with
        | tick hs => exact ih.tick hs
        | create hz hnew => exact ih.create hz hnew
        | die hne => exact ih.die hne
  obtain ⟨xs, hr, hx⟩ := hmapped.sched
  refine ⟨hmapped.made _ (hr.created _ (hx.currentOn c)) fun d hd => hne ?_, fun cr3 frame r hmem => ?_⟩
  · rw [hd, hx.ownIdle c d hd]
  · rw [hmapped.loaded c hne]
    exact (hmapped.keeps _ cr3 frame r hmem).2

end AddressSpace

/-- A thread that is made with the page map 7 runs in it. -/
theorem new_thread_in_own_pagemap : ∃ (trace : List (Event 1 × Option (Nat × InterruptFrame))) (w : World 1),
    Trace Logs (boot [(soleCpu, 10)]) trace w ∧ w.sched.current soleCpu = 20 ∧ (w.sched.cpus soleCpu).cr3 = 7 := by
  have ho : BootOrder [(soleCpu, 10)] := ⟨by decide, by decide, by decide, by decide, by decide⟩
  obtain ⟨⟨s', r⟩, hs⟩ : ∃ p, schedTick 5 (createThread (boot [(soleCpu, 10)]).sched 20 7 {}) soleCpu {} = some p :=
    Option.isSome_iff_exists.mp (by decide)
  have hthreads : (schedTick 5 (createThread (boot [(soleCpu, 10)]).sched 20 7 {}) soleCpu {}).map
      (fun p => (p.1.current soleCpu, p.1.idle soleCpu)) = some (20, 10) := by decide
  rw [hs] at hthreads
  obtain ⟨hcur, hidle⟩ := Prod.mk.inj (Option.some.inj hthreads)
  have hnew : Logs (boot [(soleCpu, 10)]) (.create 20 7 {}, none)
      ⟨createThread (boot [(soleCpu, 10)]).sched 20 7 {}, [20, 10], []⟩ := .create (by decide) (by decide)
  have htick : Logs ⟨createThread (boot [(soleCpu, 10)]).sched 20 7 {}, [20, 10], []⟩ (.tick soleCpu {}, r)
      ⟨s', [20, 10], []⟩ := .tick hs
  have hne : s'.current soleCpu ≠ s'.idle soleCpu := by
    rw [hcur, hidle]
    decide
  have hrun := (Trace.nil.snoc hnew).snoc htick
  refine ⟨_, _, hrun, hcur, (thread_runs_in_own_pagemap ho hrun soleCpu hne).2 7 {} none ?_⟩
  rw [hcur]
  exact List.mem_cons_self

end Flan.Proc
