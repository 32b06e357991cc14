import Mathlib.Logic.Function.Basic
import Mathlib.Tactic.TypeStar

/-! Calls that run under a lock which is taken by test and set. In whatever order the callers
take their steps, the calls act as if each were one step, in the order in which they give the
lock back. -/
namespace Flan.Lib

/-- The word of a lock with its two operations. -/
structure TestAndSet (L : Type*) where
  acquire : L → Bool × L
  release : L → L
  free : L
  held : L
  acquire_free : acquire free = (true, held)
  acquire_held : acquire held = (false, held)
  release_held : release held = free

/-- What runs under the lock. A step acts on the shared state and on what the caller keeps to
itself, and goes on or comes to a result. -/
structure Critical (σ C κ ρ : Type*) where
  enter : C → κ
  step : σ → κ → σ × (κ ⊕ ρ)

namespace Critical
variable {σ C κ ρ : Type*} (b : Critical σ C κ ρ)

/-- What is run, alone and for a number of steps. -/
def run : (fuel : Nat) → σ → κ → Option (σ × ρ)
  | 0, _, _ => none
  | fuel + 1, s, k =>
      match b.step s k with
      | (t, .inl k') => run fuel t k'
      | (t, .inr r) => some (t, r)

/-- What is run comes from one state to another without an end. -/
inductive Steps : σ → κ → σ → κ → Prop
  | refl {s : σ} {k : κ} : Steps s k s k
  | tail {s t u : σ} {k l m : κ} (h : Steps s k t l) (hstep : b.step t l = (u, .inl m)) : Steps s k u m

/-- Alone, it comes to an end with this outcome. -/
def Returns (s : σ) (k : κ) (x : σ × ρ) : Prop := ∃ n, b.run n s k = some x

/-- From every state that has `I`, each call ends, in a state that has `I` again, and with an
outcome of `R`. -/
def Computes (I : σ → Prop) (R : σ → C → σ → ρ → Prop) : Prop :=
  ∀ s c, I s → ∃ t r, b.Returns s (b.enter c) (t, r) ∧ I t ∧ R s c t r

variable {b} {s t : σ} {k k' : κ} {r : ρ} {n : Nat}

theorem run_inl (h : b.step s k = (t, .inl k')) : b.run (n + 1) s k = b.run n t k' := by
  rw [run, h]

theorem run_inr (h : b.step s k = (t, .inr r)) : b.run (n + 1) s k = some (t, r) := by
  rw [run, h]

theorem Returns.step {x : σ × ρ} (hstep : b.step s k = (t, .inl k')) (h : b.Returns t k' x) : b.Returns s k x := by
  obtain ⟨n, hn⟩ := h
  exact ⟨n + 1, (run_inl hstep).trans hn⟩

theorem Returns.done (hstep : b.step s k = (t, .inr r)) : b.Returns s k (t, r) :=
  ⟨1, run_inr hstep⟩

end Critical

/-- The calls of a history, each made in one step from where the one before it ended. -/
def Replays {σ C ρ ι : Type*} (R : σ → C → σ → ρ → Prop) : σ → List (ι × C × ρ) → σ → Prop
  | s, [], t => s = t
  | s, (_, c, r) :: log, t => ∃ u, R s c u r ∧ Replays R u log t

theorem Replays.snoc {σ C ρ ι : Type*} {R : σ → C → σ → ρ → Prop} {s t u : σ} {c : C} {r : ρ}
    {log : List (ι × C × ρ)} (h : Replays R s log t) (i : ι) (hR : R t c u r) :
    Replays R s (log ++ [(i, c, r)]) u := by
  induction log generalizing s with
  | nil =>
      obtain rfl : s = t := h
      exact ⟨u, hR, rfl⟩
  | cons e log ih =>
      obtain ⟨v, hv, hrest⟩ := h
      exact ⟨v, hv, ih hrest⟩

/-- Where a caller is. What it counts while it waits is of type `W`. -/
inductive Phase (C κ ρ W : Type*) where
  | idle
  | waiting (call : C) (w : W)
  | inside (call : C) (own : κ)
  | leaving (call : C) (result : ρ)
  | gone (call : C)

/-- The caller has the lock. -/
def Phase.Holds {C κ ρ W : Type*} : Phase C κ ρ W → Prop
  | .inside _ _ => True
  | .leaving _ _ => True
  | _ => False

/-- The call that the caller is making, if any, is one of these. -/
def Phase.Calls {C κ ρ W : Type*} (P : C → Prop) : Phase C κ ρ W → Prop
  | .idle => True
  | .waiting c _ => P c
  | .inside c _ => P c
  | .leaving c _ => P c
  | .gone c => P c

/-- The shared state, the lock and the callers, with the calls that have returned. -/
structure Locked (ι σ L C κ ρ W : Type*) where
  shared : σ
  lock : L
  phase : ι → Phase C κ ρ W
  log : List (ι × C × ρ)

/-- A caller begins a call, or takes its next step. -/
inductive Turn (ι C : Type*) where
  | call (i : ι) (c : C)
  | run (i : ι)

/-- The caller whose turn it is. -/
def Turn.caller {ι C : Type*} : Turn ι C → ι
  | .call i _ => i
  | .run i => i

def Turn.isRun {ι C : Type*} [DecidableEq ι] (i : ι) : Turn ι C → Bool
  | .call _ _ => false
  | .run j => j = i

theorem Turn.isRun_iff {ι C : Type*} [DecidableEq ι] {i : ι} {a : Turn ι C} : a.isRun i ↔ a = .run i := by
  cases a with
  | call j c => simp [isRun]
  | run j => simp [isRun]

/-- The lock, the way it is waited for, and what runs under it. A failed attempt is made again, for
the same call or for another one, or given up; after some calls the caller makes no other. -/
structure Guard (σ L C κ ρ W : Type*) where
  lock : TestAndSet L
  first : W
  again : C → W → Option (C × W)
  stops : C → Bool
  body : Critical σ C κ ρ

namespace Guard
variable {ι σ L C κ ρ W : Type*} (g : Guard σ L C κ ρ W)

/-- Nobody has made a call yet. -/
def start (s : σ) : Locked ι σ L C κ ρ W := ⟨s, g.lock.free, fun _ => .idle, []⟩

/-- What holds in every state: the calls that have returned were made one after the other from
`s₀`, and at most one caller has the lock and is on its way from where they ended. -/
inductive Inv (I : σ → Prop) (R : σ → C → σ → ρ → Prop) (s₀ : σ) (s : Locked ι σ L C κ ρ W) : Prop
  | free (hlog : Replays R s₀ s.log s.shared) (hI : I s.shared) (hlock : s.lock = g.lock.free)
      (hout : ∀ j, ¬ (s.phase j).Holds)
  | inside {i : ι} {c : C} {k : κ} {t u : σ} {r : ρ} {n : Nat} (hlog : Replays R s₀ s.log t) (hR : R t c u r)
      (hI : I u) (hlock : s.lock = g.lock.held) (hphase : s.phase i = .inside c k)
      (hsteps : g.body.Steps t (g.body.enter c) s.shared k)
      (hrun : g.body.run n s.shared k = some (u, r)) (hout : ∀ j, j ≠ i → ¬ (s.phase j).Holds)
  | leaving {i : ι} {c : C} {t : σ} {r : ρ} (hlog : Replays R s₀ s.log t) (hR : R t c s.shared r) (hI : I s.shared)
      (hlock : s.lock = g.lock.held) (hphase : s.phase i = .leaving c r) (hout : ∀ j, j ≠ i → ¬ (s.phase j).Holds)

section Reading
variable {g} {I : σ → Prop} {R : σ → C → σ → ρ → Prop} {s₀ : σ} {s : Locked ι σ L C κ ρ W}

theorem inv_start (R : σ → C → σ → ρ → Prop) (h : I s₀) : g.Inv I R s₀ (g.start s₀ : Locked ι σ L C κ ρ W) :=
  .free rfl h rfl fun _ => id

/-- At most one caller has the lock. -/
theorem Inv.exclusive (h : g.Inv I R s₀ s) {i j : ι} (hi : (s.phase i).Holds) (hj : (s.phase j).Holds) : i = j := by
  have hone : ∀ x, (∀ j, j ≠ x → ¬ (s.phase j).Holds) → i = j := by
    intro x hout
    have hix : i = x := by_contra fun hne => hout i hne hi
    have hjx : j = x := by_contra fun hne => hout j hne hj
    rw [hix, hjx]
  cases h with
  | free _ _ _ hout => exact absurd hi (hout i)
  | inside _ _ _ _ _ _ _ hout => exact hone _ hout
  | leaving _ _ _ _ _ hout => exact hone _ hout

/-- The calls that have returned are a sequential history, and it has led to the shared state
whenever nobody has the lock. -/
theorem Inv.replays (h : g.Inv I R s₀ s) :
    ∃ t, Replays R s₀ s.log t ∧ ((∀ i, ¬ (s.phase i).Holds) → s.shared = t) := by
  cases h with
  | free hlog _ _ _ => exact ⟨_, hlog, fun _ => rfl⟩
  | inside hlog _ _ _ hphase _ _ _ => exact ⟨_, hlog, fun hno => absurd (by rw [hphase]; trivial) (hno _)⟩
  | leaving hlog _ _ _ hphase _ => exact ⟨_, hlog, fun hno => absurd (by rw [hphase]; trivial) (hno _)⟩

end Reading

/-- After a failed attempt. -/
def retry (c : C) (w : W) : Phase C κ ρ W :=
  match g.again c w with
  | some (c, w) => .waiting c w
  | none => .gone c

/-- After the lock has been given back. -/
def done (c : C) : Phase C κ ρ W := if g.stops c then .gone c else .idle

variable [DecidableEq ι]

def next (s : Locked ι σ L C κ ρ W) : Turn ι C → Locked ι σ L C κ ρ W
  | .call i c =>
      match s.phase i with
      | .idle => { s with phase := Function.update s.phase i (.waiting c g.first) }
      | _ => s
  | .run i =>
      match s.phase i with
      | .idle => s
      | .waiting c w =>
          match g.lock.acquire s.lock with
          | (true, lock) =>
              { s with lock, phase := Function.update s.phase i (.inside c (g.body.enter c)) }
          | (false, lock) => { s with lock, phase := Function.update s.phase i (g.retry c w) }
      | .inside c k =>
          match g.body.step s.shared k with
          | (shared, .inl k) => { s with shared, phase := Function.update s.phase i (.inside c k) }
          | (shared, .inr r) => { s with shared, phase := Function.update s.phase i (.leaving c r) }
      | .leaving c r =>
          { s with
            lock := g.lock.release s.lock
            phase := Function.update s.phase i (g.done c)
            log := s.log ++ [(i, c, r)] }
      | .gone _ => s

variable {g} {I : σ → Prop} {R : σ → C → σ → ρ → Prop} {s₀ : σ} {s : Locked ι σ L C κ ρ W}

theorem not_holds_retry (c : C) (w : W) : ¬ (g.retry c w).Holds := by
  rw [retry]
  split <;> exact id

theorem not_holds_done (c : C) : ¬ (g.done c).Holds := by
  rw [done]
  split <;> exact id

/-- Another caller that comes to a phase without the lock. -/
theorem outside_update {i j : ι} {p : Phase C κ ρ W} (hp : ¬ p.Holds) (h : ¬ (s.phase j).Holds) :
    ¬ (Function.update s.phase i p j).Holds := by
  by_cases hj : j = i
  · rw [hj, Function.update_self]
    exact hp
  · rw [Function.update_of_ne hj]
    exact h

theorem next_call {i : ι} (c : C) (h : s.phase i = .idle) :
    g.next s (.call i c) = { s with phase := Function.update s.phase i (.waiting c g.first) } := by
  simp only [next, h]

theorem next_still {i : ι} (h : s.phase i = .idle ∨ ∃ c, s.phase i = .gone c) : g.next s (.run i) = s := by
  rcases h with h | ⟨c, h⟩ <;> simp only [next, h]

theorem next_fails {i : ι} {c : C} {w : W} (h : s.phase i = .waiting c w) (hlock : s.lock = g.lock.held) :
    g.next s (.run i) = { s with phase := Function.update s.phase i (g.retry c w) } := by
  simp only [next, h, hlock, g.lock.acquire_held]

theorem next_acquires {i : ι} {c : C} {w : W} (h : s.phase i = .waiting c w) (hlock : s.lock = g.lock.free) :
    g.next s (.run i) =
      { s with lock := g.lock.held, phase := Function.update s.phase i (.inside c (g.body.enter c)) } := by
  simp only [next, h, hlock, g.lock.acquire_free]

/-- A turn moves only the caller whose turn it is. -/
theorem next_phase_of_ne {a : Turn ι C} {j : ι} (hj : j ≠ a.caller) : (g.next s a).phase j = s.phase j := by
  cases a with
  | call i c =>
      rw [next]
      split
      · exact Function.update_of_ne hj ..
      · rfl
  | run i =>
      rw [next]
      split
      · rfl
      · split <;> exact Function.update_of_ne hj ..
      · split <;> exact Function.update_of_ne hj ..
      · exact Function.update_of_ne hj ..
      · rfl

/-- The calls that have returned stay in the log. -/
theorem log_grows (a : Turn ι C) : s.log <+: (g.next s a).log := by
  cases a with
  | call i c =>
      rw [next]
      split <;> exact List.prefix_rfl
  | run i =>
      rw [next]
      split
      · exact List.prefix_rfl
      · split <;> exact List.prefix_rfl
      · split <;> exact List.prefix_rfl
      · exact List.prefix_append ..
      · exact List.prefix_rfl

/-- What a turn does that is not one of the caller with the lock: it moves a caller that has not
got it, and takes the lock only if that is free. -/
theorem next_outside (a : Turn ι C) (ha : ∀ i, a = .run i → ¬ (s.phase i).Holds) :
    (∃ i p, ¬ p.Holds ∧ ¬ (s.phase i).Holds ∧ g.next s a = { s with phase := Function.update s.phase i p }) ∨
    g.next s a = s ∨
    ∃ i c w, a = .run i ∧ s.phase i = .waiting c w ∧ s.lock ≠ g.lock.held := by
  cases a with
  | call i c =>
      cases hp : s.phase i with
      | idle => exact .inl ⟨i, _, id, by rw [hp]; exact id, next_call c hp⟩
      | _ => exact .inr (.inl (by simp only [next, hp]))
  | run i =>
      cases hp : s.phase i with
      | idle => exact .inr (.inl (next_still (.inl hp)))
      | gone c => exact .inr (.inl (next_still (.inr ⟨c, hp⟩)))
      | waiting c w =>
          by_cases hlock : s.lock = g.lock.held
          · exact .inl ⟨i, _, not_holds_retry c w, by rw [hp]; exact id, next_fails hp hlock⟩
          · exact .inr (.inr ⟨i, c, w, rfl, hp, hlock⟩)
      | inside c k => exact absurd (by rw [hp]; trivial) (ha i rfl)
      | leaving c r => exact absurd (by rw [hp]; trivial) (ha i rfl)

/-- The others change nothing of what the caller with the lock is doing. -/
theorem next_others {i : ι} {a : Turn ι C} (hlock : s.lock = g.lock.held) (ha : a ≠ .run i)
    (hi : (s.phase i).Holds) (hout : ∀ j, j ≠ i → ¬ (s.phase j).Holds) :
    ∃ phase : ι → Phase C κ ρ W, g.next s a = { s with phase } ∧ phase i = s.phase i ∧
      ∀ j, j ≠ i → ¬ (phase j).Holds := by
  have hnot : ∀ j, a = .run j → ¬ (s.phase j).Holds := by
    intro j hj
    apply hout
    rintro rfl
    exact ha hj
  rcases next_outside (g := g) a hnot with ⟨j, p, hp, hj, heq⟩ | heq | ⟨j, c, w, _, _, hfree⟩
  · have hij : i ≠ j := by
      rintro rfl
      exact hj hi
    exact ⟨_, heq, Function.update_of_ne hij _ _, fun x hx => outside_update hp (hout x hx)⟩
  · exact ⟨s.phase, heq, rfl, hout⟩
  · exact absurd hlock hfree

/-- What a step of the caller under the lock keeps. -/
theorem Inv.step_inside {i : ι} {c : C} {k : κ} {t u : σ} {r : ρ} {n : Nat} (hlog : Replays R s₀ s.log t)
    (hR : R t c u r) (hI : I u) (hlock : s.lock = g.lock.held) (hphase : s.phase i = .inside c k)
    (hsteps : g.body.Steps t (g.body.enter c) s.shared k)
    (hrun : g.body.run n s.shared k = some (u, r)) (hout : ∀ j, j ≠ i → ¬ (s.phase j).Holds) :
    g.Inv I R s₀ (g.next s (.run i)) := by
  have hothers : ∀ p : Phase C κ ρ W, ∀ j, j ≠ i → ¬ (Function.update s.phase i p j).Holds := by
    intro p j hj
    rw [Function.update_of_ne hj]
    exact hout j hj
  cases n with
  | zero => cases hrun
  | succ n =>
      cases hstep : g.body.step s.shared k with
      | mk v out =>
          cases out with
          | inl k' =>
              rw [Critical.run_inl hstep] at hrun
              simp only [next, hphase, hstep]
              exact .inside hlog hR hI hlock (Function.update_self ..) (hsteps.tail hstep) hrun (hothers _)
          | inr q =>
              rw [Critical.run_inr hstep] at hrun
              obtain ⟨rfl, rfl⟩ := Prod.mk.inj (Option.some.inj hrun)
              simp only [next, hphase, hstep]
              exact .leaving hlog hR hI hlock (Function.update_self ..) (hothers _)

/-- The caller gives the lock back. -/
theorem Inv.step_leaving {i : ι} {c : C} {t : σ} {r : ρ} (hlog : Replays R s₀ s.log t) (hR : R t c s.shared r)
    (hI : I s.shared) (hlock : s.lock = g.lock.held) (hphase : s.phase i = .leaving c r)
    (hout : ∀ j, j ≠ i → ¬ (s.phase j).Holds) : g.Inv I R s₀ (g.next s (.run i)) := by
  simp only [next, hphase]
  refine .free (hlog.snoc i hR) hI ?_ ?_
  · simp only [hlock, g.lock.release_held]
  · intro j
    by_cases hj : j = i
    · simp only [hj, Function.update_self]
      exact not_holds_done c
    · simp only [Function.update_of_ne hj]
      exact hout j hj

theorem Inv.step (hb : g.body.Computes I R) (h : g.Inv I R s₀ s) (a : Turn ι C) : g.Inv I R s₀ (g.next s a) := by
  cases h with
  | free hlog hI hlock hout =>
      rcases next_outside (g := g) a (fun i _ => hout i) with ⟨i, p, hp, _, heq⟩ | heq | ⟨i, c, w, rfl, hp, _⟩
      · rw [heq]
        exact .free hlog hI hlock fun j => outside_update hp (hout j)
      · rw [heq]
        exact .free hlog hI hlock hout
      · obtain ⟨t, r, ⟨n, hn⟩, hI', hR⟩ := hb s.shared c hI
        rw [next_acquires hp hlock]
        refine .inside hlog hR hI' rfl (Function.update_self ..) .refl hn ?_
        intro j hj
        simp only [Function.update_of_ne hj]
        exact hout j
  | @inside i c k t u r n hlog hR hI hlock hphase hsteps hrun hout =>
      by_cases ha : a = .run i
      · rw [ha]
        exact step_inside hlog hR hI hlock hphase hsteps hrun hout
      · obtain ⟨phase, heq, hi, hout'⟩ := next_others hlock ha (by rw [hphase]; trivial) hout
        rw [heq]
        exact .inside hlog hR hI hlock (hi.trans hphase) hsteps hrun hout'
  | @leaving i c t r hlog hR hI hlock hphase hout =>
      by_cases ha : a = .run i
      · rw [ha]
        exact step_leaving hlog hR hI hlock hphase hout
      · obtain ⟨phase, heq, hi, hout'⟩ := next_others hlock ha (by rw [hphase]; trivial) hout
        rw [heq]
        exact .leaving hlog hR hI hlock (hi.trans hphase) hout'

/-- Every run keeps the invariant. -/
theorem Inv.run (hb : g.body.Computes I R) (h : g.Inv I R s₀ s) (turns : List (Turn ι C)) :
    g.Inv I R s₀ (turns.foldl g.next s) := by
  induction turns generalizing s with
  | nil => exact h
  | cons a turns ih => exact ih (h.step hb a)

theorem calls_step {P : ι → C → Prop} (hagain : ∀ i c w c' w', P i c → g.again c w = some (c', w') → P i c')
    (h : ∀ i, (s.phase i).Calls (P i)) {a : Turn ι C} (ha : ∀ i c, a = .call i c → P i c) (i : ι) :
    ((g.next s a).phase i).Calls (P i) := by
  -- one caller has moved to another phase
  have hmoved : ∀ j p, p.Calls (P j) → (Function.update s.phase j p i).Calls (P i) := by
    intro j p hp
    by_cases hij : i = j
    · subst hij
      rw [Function.update_self]
      exact hp
    · rw [Function.update_of_ne hij]
      exact h i
  cases a with
  | call j c =>
      rw [next]
      split
      · exact hmoved j _ (ha j c rfl)
      · exact h i
  | run j =>
      have hj := h j
      cases hp : s.phase j with
      | idle => simpa only [next, hp] using h i
      | gone c => simpa only [next, hp] using h i
      | waiting c w =>
          rw [hp] at hj
          simp only [next, hp]
          split
          · exact hmoved j _ hj
          · refine hmoved j _ ?_
            rw [retry]
            split
            · exact hagain j c w _ _ hj (by assumption)
            · exact hj
      | inside c k =>
          rw [hp] at hj
          simp only [next, hp]
          split
          · exact hmoved j _ hj
          · exact hmoved j _ hj
      | leaving c r =>
          rw [hp] at hj
          simp only [next, hp]
          refine hmoved j _ ?_
          rw [done]
          split
          · exact hj
          · trivial

/-- Callers that begin only calls of their own are in no others. -/
theorem calls_run {P : ι → C → Prop} (hagain : ∀ i c w c' w', P i c → g.again c w = some (c', w') → P i c')
    (h : ∀ i, (s.phase i).Calls (P i)) (turns : List (Turn ι C)) (hturns : ∀ i c, .call i c ∈ turns → P i c) (i : ι) :
    ((turns.foldl g.next s).phase i).Calls (P i) := by
  induction turns generalizing s with
  | nil => exact h i
  | cons a turns ih =>
      refine ih (calls_step hagain h fun i c ha => ?_) fun i c hc => hturns i c (List.mem_cons_of_mem a hc)
      rw [ha] at hturns
      exact hturns i c List.mem_cons_self

/-- The caller at its end gives the lock back at its next step. -/
theorem gives_back {i : ι} {c : C} {r : ρ} (hlock : s.lock = g.lock.held) (hphase : s.phase i = .leaving c r)
    (hout : ∀ j, j ≠ i → ¬ (s.phase j).Holds) {turns : List (Turn ι C)} (hturns : 0 < turns.countP (·.isRun i)) :
    ∃ before, before <+: turns ∧ (before.foldl g.next s).log = s.log ++ [(i, c, r)] ∧
      (before.foldl g.next s).shared = s.shared := by
  induction turns generalizing s with
  | nil => cases hturns
  | cons a turns ih =>
      by_cases ha : a = .run i
      · refine ⟨[a], List.prefix_append [a] turns, ?_⟩
        rw [List.foldl_cons, List.foldl_nil, ha]
        simp only [next, hphase, and_self]
      · obtain ⟨phase, heq, hi, hout'⟩ := next_others hlock ha (by rw [hphase]; trivial) hout
        rw [List.countP_cons_of_neg (by rw [Turn.isRun_iff]; exact ha)] at hturns
        obtain ⟨before, hbefore, hres⟩ := ih (s := { s with phase }) hlock (hi.trans hphase) hout' hturns
        refine ⟨a :: before, (List.prefix_cons_inj a).mpr hbefore, ?_⟩
        rw [List.foldl_cons, heq]
        exact hres

/-- The caller under the lock returns once it has had its steps, whatever the others do in
between. -/
theorem leaves {i : ι} {c : C} {k : κ} {x : σ × ρ} {n : Nat} (hlock : s.lock = g.lock.held)
    (hphase : s.phase i = .inside c k) (hrun : g.body.run n s.shared k = some x)
    (hout : ∀ j, j ≠ i → ¬ (s.phase j).Holds) {turns : List (Turn ι C)} (hturns : n < turns.countP (·.isRun i)) :
    ∃ before, before <+: turns ∧ (before.foldl g.next s).log = s.log ++ [(i, c, x.2)] ∧
      (before.foldl g.next s).shared = x.1 := by
  induction turns generalizing s k n with
  | nil => cases hturns
  | cons a turns ih =>
      -- what is left to do from the state after the turn
      suffices h : ∃ before, before <+: turns ∧
          (before.foldl g.next (g.next s a)).log = s.log ++ [(i, c, x.2)] ∧
          (before.foldl g.next (g.next s a)).shared = x.1 by
        obtain ⟨before, hbefore, hres⟩ := h
        exact ⟨a :: before, (List.prefix_cons_inj a).mpr hbefore, hres⟩
      by_cases ha : a = .run i
      · have hothers : ∀ p : Phase C κ ρ W, ∀ j, j ≠ i → ¬ (Function.update s.phase i p j).Holds := by
          intro p j hj
          rw [Function.update_of_ne hj]
          exact hout j hj
        rw [List.countP_cons_of_pos (Turn.isRun_iff.mpr ha)] at hturns
        cases n with
        | zero => cases hrun
        | succ n =>
            cases hstep : g.body.step s.shared k with
            | mk u out =>
                cases out with
                | inl k' =>
                    rw [Critical.run_inl hstep] at hrun
                    simp only [ha, next, hphase, hstep]
                    exact ih (s := ⟨u, s.lock, _, s.log⟩) hlock (Function.update_self ..) hrun (hothers _)
                      (Nat.lt_of_succ_lt_succ hturns)
                | inr r =>
                    rw [Critical.run_inr hstep] at hrun
                    simp only [ha, next, hphase, hstep, ← Option.some.inj hrun]
                    exact gives_back (s := ⟨u, s.lock, _, s.log⟩) hlock (Function.update_self ..) (hothers _)
                      (Nat.zero_lt_of_lt (Nat.lt_of_succ_lt_succ hturns))
      · obtain ⟨phase, heq, hi, hout'⟩ := next_others hlock ha (by rw [hphase]; trivial) hout
        rw [List.countP_cons_of_neg (by rw [Turn.isRun_iff]; exact ha)] at hturns
        rw [heq]
        exact ih (s := { s with phase }) hlock (hi.trans hphase) hrun hout' hturns

end Guard

end Flan.Lib
