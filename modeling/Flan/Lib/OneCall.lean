import Mathlib.Data.List.Nodup
import Mathlib.Data.Nat.Find
import Mathlib.Logic.Function.Iterate
import Flan.Lib.Guarded

/-! Callers of which each makes one call under the lock. -/
namespace Flan.Lib

/-- Where a caller is with its call. -/
inductive Due where
  | before
  | during
  | after
deriving DecidableEq

/-- What that says about its phase and about the calls that have returned. -/
def Due.Fits {C κ ρ W : Type*} (p : Phase C κ ρ W) (c : C) (returned : Prop) : Due → Prop
  | .before => p = .idle ∧ ¬ returned
  | .during => p ≠ .idle ∧ p.Calls (· = c) ∧ ¬ returned
  | .after => p = .idle ∧ returned

def Phase.isIdle {C κ ρ W : Type*} : Phase C κ ρ W → Bool
  | .idle => true
  | _ => false

namespace Guard
variable {ι σ L C κ ρ W : Type*} {g : Guard σ L C κ ρ W}

/-- The calls that have returned are those of the callers that are through, one for each. -/
structure OneCall (call : ι → C) (due : ι → Due) (s : Locked ι σ L C κ ρ W) : Prop where
  calls : ∀ e ∈ s.log, e.2.1 = call e.1
  once : (s.log.map Prod.fst).Nodup
  fits : ∀ i, (due i).Fits (s.phase i) (call i) (i ∈ s.log.map Prod.fst)

theorem oneCall_start (call : ι → C) (s : σ) :
    OneCall call (fun _ => .before) (g.start s : Locked ι σ L C κ ρ W) :=
  ⟨fun _ h => absurd h List.not_mem_nil, List.nodup_nil, fun _ => ⟨rfl, List.not_mem_nil⟩⟩

variable [DecidableEq ι] {call : ι → C} {due : ι → Due} {s : Locked ι σ L C κ ρ W} {i : ι}

/-- A caller moves to another phase, and no call returns. -/
theorem OneCall.move (h : OneCall call due s) {p : Phase C κ ρ W} {d : Due} {t : σ} {l : L}
    (hd : d.Fits p (call i) (i ∈ s.log.map Prod.fst)) :
    OneCall call (Function.update due i d) ⟨t, l, Function.update s.phase i p, s.log⟩ := by
  refine ⟨h.calls, h.once, fun j => ?_⟩
  by_cases hji : j = i
  · subst hji
    simp only [Function.update_self]
    exact hd
  · simp only [Function.update_of_ne hji]
    exact h.fits j

theorem OneCall.begin (h : OneCall call due s) (hi : due i = .before) :
    OneCall call (Function.update due i .during) (g.next s (.call i (call i))) := by
  have hfits := h.fits i
  rw [hi] at hfits
  rw [next_call _ hfits.1]
  refine h.move ⟨?_, rfl, hfits.2⟩
  intro hp
  cases hp

/-- A step of a caller in its call: the call returns, or the caller stays in it. -/
theorem OneCall.run (hagain : ∀ c w c' w', g.again c w = some (c', w') → c' = c) (hstops : ∀ c, g.stops c = false)
    (h : OneCall call due s) (hi : due i = .during) :
    OneCall call (if ((g.next s (.run i)).phase i).isIdle then Function.update due i .after else due)
      (g.next s (.run i)) := by
  have hfits := h.fits i
  rw [hi] at hfits
  obtain ⟨hbusy, hcall, hnot⟩ := hfits
  -- the caller stays in its call
  have hstay : ∀ {p : Phase C κ ρ W} {t : σ} {l : L}, p.isIdle = false → p.Calls (· = call i) →
      OneCall call (if (Function.update s.phase i p i).isIdle then Function.update due i .after else due)
        ⟨t, l, Function.update s.phase i p, s.log⟩ := by
    intro p t l hp hpc
    have hmove := h.move (t := t) (l := l) (d := .during) (p := p) (i := i) ⟨?_, hpc, hnot⟩
    · rw [← hi, Function.update_eq_self] at hmove
      simp only [Function.update_self, hp, Bool.false_eq_true, if_false]
      exact hmove
    · rintro rfl
      cases hp
  cases hphase : s.phase i with
  | idle => exact absurd hphase hbusy
  | gone c =>
      rw [next_still (.inr ⟨c, hphase⟩), hphase]
      exact h
  | waiting c w =>
      rw [hphase] at hcall
      simp only [next, hphase]
      split
      · exact hstay rfl hcall
      · rw [retry]
        split
        · exact hstay rfl ((hagain c w _ _ (by assumption)).trans hcall)
        · exact hstay rfl hcall
  | inside c k =>
      rw [hphase] at hcall
      simp only [next, hphase]
      split
      · exact hstay rfl hcall
      · exact hstay rfl hcall
  | leaving c r =>
      rw [hphase] at hcall
      obtain rfl : c = call i := hcall
      simp only [next, hphase, done, hstops, Bool.false_eq_true, if_false, Function.update_self, Phase.isIdle, if_true]
      refine ⟨?_, ?_, fun j => ?_⟩
      · intro e he
        rcases List.mem_append.mp he with he | he
        · exact h.calls e he
        · rw [List.mem_singleton.mp he]
      · rw [List.map_append, List.nodup_append]
        refine ⟨h.once, List.nodup_singleton _, ?_⟩
        rintro a ha b hb rfl
        rw [List.map_singleton, List.mem_singleton] at hb
        rw [hb] at ha
        exact hnot ha
      · by_cases hji : j = i
        · subst hji
          simp only [Function.update_self]
          exact ⟨rfl, by simp⟩
        · have hsame : j ∈ (s.log ++ [(i, call i, r)]).map Prod.fst ↔ j ∈ s.log.map Prod.fst := by
            simp [hji]
          simp only [Function.update_of_ne hji, hsame]
          exact h.fits j

/-- The callers, each with its call and where it is with it. -/
structure Once (ι σ L C κ ρ W : Type*) where
  locked : Locked ι σ L C κ ρ W
  due : ι → Due

variable (g call) in
/-- The next step of a caller: it begins its call, goes on with it, or has nothing left to do. -/
def onceStep (s : Once ι σ L C κ ρ W) (i : ι) : Once ι σ L C κ ρ W :=
  match s.due i with
  | .before => ⟨g.next s.locked (.call i (call i)), Function.update s.due i .during⟩
  | .during =>
      let locked := g.next s.locked (.run i)
      ⟨locked, if (locked.phase i).isIdle then Function.update s.due i .after else s.due⟩
  | .after => s

variable (g) in
def onceStart (s : σ) : Once ι σ L C κ ρ W := ⟨g.start s, fun _ => .before⟩

variable (g call) in
structure OnceInv (I : σ → Prop) (R : σ → C → σ → ρ → Prop) (s₀ : σ) (s : Once ι σ L C κ ρ W) : Prop where
  inv : g.Inv I R s₀ s.locked
  one : OneCall call s.due s.locked

variable {I : σ → Prop} {R : σ → C → σ → ρ → Prop} {s₀ : σ}

omit [DecidableEq ι] in
theorem onceInv_start (h : I s₀) : g.OnceInv call I R s₀ (g.onceStart s₀ : Once ι σ L C κ ρ W) :=
  ⟨inv_start R h, oneCall_start call s₀⟩

theorem OnceInv.step {s : Once ι σ L C κ ρ W} (hb : g.body.Computes I R)
    (hagain : ∀ c w c' w', g.again c w = some (c', w') → c' = c) (hstops : ∀ c, g.stops c = false)
    (h : g.OnceInv call I R s₀ s) (i : ι) : g.OnceInv call I R s₀ (g.onceStep call s i) := by
  unfold onceStep
  split
  · exact ⟨h.inv.step hb (.call i (call i)), h.one.begin (by assumption)⟩
  · exact ⟨h.inv.step hb (.run i), h.one.run hagain hstops (by assumption)⟩
  · exact h

/-- Only the caller that takes the step gets on. -/
theorem onceStep_due_of_ne {s : Once ι σ L C κ ρ W} {i j : ι} (hij : j ≠ i) :
    (g.onceStep call s i).due j = s.due j := by
  unfold onceStep
  split
  · exact Function.update_of_ne hij ..
  · dsimp only
    split
    · exact Function.update_of_ne hij ..
    · rfl
  · rfl

/-! ### A caller that goes on alone -/

/-- Nobody has the lock. -/
def Once.Quiet (s : Once ι σ L C κ ρ W) : Prop := ∀ j, ¬ (s.locked.phase j).Holds

theorem onceStep_during (call : ι → C) {s : Once ι σ L C κ ρ W} (hdue : s.due i = .during)
    (hbusy : ((g.next s.locked (.run i)).phase i).isIdle = false) :
    g.onceStep call s i = ⟨g.next s.locked (.run i), s.due⟩ := by
  simp only [onceStep, hdue, hbusy, Bool.false_eq_true, if_false]

theorem ends_inside (call : ι → C) (hstops : ∀ c, g.stops c = false) {n : Nat} {s : Once ι σ L C κ ρ W} {c : C} {k : κ} {x : σ × ρ}
    (hdue : s.due i = .during) (hphase : s.locked.phase i = .inside c k)
    (hrun : g.body.run n s.locked.shared k = some x) (hout : ∀ j, j ≠ i → ¬ (s.locked.phase j).Holds) :
    ∃ m, (((g.onceStep call · i)^[m]) s).due i = .after ∧ (((g.onceStep call · i)^[m]) s).Quiet := by
  induction n generalizing s k with
  | zero => cases hrun
  | succ n ih =>
      have hothers : ∀ (p : Phase C κ ρ W) j, j ≠ i → ¬ (Function.update s.locked.phase i p j).Holds := by
        intro p j hj
        rw [Function.update_of_ne hj]
        exact hout j hj
      cases hstep : g.body.step s.locked.shared k with
      | mk u out =>
          cases out with
          | inl k' =>
              rw [Critical.run_inl hstep] at hrun
              have hnext : g.next s.locked (.run i) =
                  ⟨u, s.locked.lock, Function.update s.locked.phase i (.inside c k'), s.locked.log⟩ := by
                simp only [next, hphase, hstep]
              have hbusy : ((g.next s.locked (.run i)).phase i).isIdle = false := by
                simp only [hnext, Function.update_self]
                rfl
              have honce := onceStep_during call hdue hbusy
              rw [hnext] at honce
              obtain ⟨m, hm⟩ := ih (s := g.onceStep call s i) (k := k') (by rw [honce]; exact hdue)
                (by rw [honce]; exact Function.update_self ..) (by rw [honce]; exact hrun)
                (by rw [honce]; exact hothers _)
              exact ⟨m + 1, hm⟩
          | inr r =>
              have hnext : g.next s.locked (.run i) =
                  ⟨u, s.locked.lock, Function.update s.locked.phase i (.leaving c r), s.locked.log⟩ := by
                simp only [next, hphase, hstep]
              have hbusy : ((g.next s.locked (.run i)).phase i).isIdle = false := by
                simp only [hnext, Function.update_self]
                rfl
              have honce := onceStep_during call hdue hbusy
              rw [hnext] at honce
              refine ⟨2, ?_⟩
              rw [Function.iterate_succ_apply, Function.iterate_one, honce]
              simp only [onceStep, hdue, next, Function.update_self, done, hstops, Bool.false_eq_true, if_false,
                Phase.isIdle, if_true, true_and]
              intro j
              by_cases hj : j = i
              · subst hj
                simp only [Function.update_self]
                exact id
              · simp only [Function.update_of_ne hj]
                exact hout j hj

/-- From a state in which nobody has the lock, a caller that goes on alone comes through its call. -/
theorem OnceInv.alone {s : Once ι σ L C κ ρ W} (hb : g.body.Computes I R) (hstops : ∀ c, g.stops c = false)
    (h : g.OnceInv call I R s₀ s) (hquiet : s.Quiet) (hdue : s.due i = .before) :
    ∃ m, (((g.onceStep call · i)^[m]) s).due i = .after ∧ (((g.onceStep call · i)^[m]) s).Quiet := by
  have hfits := h.one.fits i
  rw [hdue] at hfits
  cases h.inv with
  | inside _ _ _ _ hphase _ _ _ => exact absurd (by rw [hphase]; trivial) (hquiet _)
  | leaving _ _ _ _ hphase _ => exact absurd (by rw [hphase]; trivial) (hquiet _)
  | free _ hI hlock _ =>
      obtain ⟨t, r, ⟨n, hn⟩, -, -⟩ := hb s.locked.shared (call i) hI
      have hbegin : g.onceStep call s i =
          ⟨⟨s.locked.shared, s.locked.lock, Function.update s.locked.phase i (.waiting (call i) g.first), s.locked.log⟩,
            Function.update s.due i .during⟩ := by
        simp only [onceStep, hdue, next_call _ hfits.1]
      have hnext : g.next ⟨s.locked.shared, s.locked.lock,
            Function.update s.locked.phase i (.waiting (call i) g.first), s.locked.log⟩ (.run i) =
          ⟨s.locked.shared, g.lock.held, Function.update s.locked.phase i (.inside (call i) (g.body.enter (call i))),
            s.locked.log⟩ := by
        have := next_acquires (g := g) (i := i) (c := call i) (w := g.first) (s := ⟨s.locked.shared, s.locked.lock,
          Function.update s.locked.phase i (.waiting (call i) g.first), s.locked.log⟩) (Function.update_self ..) hlock
        rw [this]
        simp only [Function.update_idem]
      have hacquire := onceStep_during call (g := g) (i := i) (s := g.onceStep call s i)
        (by rw [hbegin]; exact Function.update_self ..) (by
          rw [hbegin, hnext]
          simp only [Function.update_self]
          rfl)
      rw [hbegin, hnext] at hacquire
      obtain ⟨m, hm⟩ := ends_inside call hstops (n := n) (x := (t, r))
        (s := g.onceStep call (g.onceStep call s i) i) (i := i) (c := call i) (k := g.body.enter (call i))
        (by rw [hbegin, hacquire]; exact Function.update_self ..)
        (by rw [hbegin, hacquire]; exact Function.update_self ..)
        (by rw [hbegin, hacquire]; exact hn)
        (by
          rw [hbegin, hacquire]
          intro j hj
          simp only [Function.update_of_ne hj]
          exact hquiet j)
      exact ⟨m + 2, hm⟩

theorem onceStep_after {s : Once ι σ L C κ ρ W} (h : s.due i = .after) (m : Nat) : ((g.onceStep call · i)^[m]) s = s := by
  have hfix : g.onceStep call s i = s := by
    simp only [onceStep, h]
  exact Function.iterate_fixed hfix m

/-- The number of steps it takes is the first after which the call has returned. -/
theorem OnceInv.alone_first {s : Once ι σ L C κ ρ W} (hb : g.body.Computes I R) (hstops : ∀ c, g.stops c = false)
    (h : g.OnceInv call I R s₀ s) (hquiet : s.Quiet) (hdue : s.due i = .before) :
    ∃ m, (((g.onceStep call · i)^[m]) s).due i = .after ∧ (((g.onceStep call · i)^[m]) s).Quiet ∧
      ∀ k < m, (((g.onceStep call · i)^[k]) s).due i ≠ .after := by
  obtain ⟨m, hm, hmq⟩ := h.alone hb hstops hquiet hdue
  have hex : ∃ m, (((g.onceStep call · i)^[m]) s).due i = .after := ⟨m, hm⟩
  refine ⟨Nat.find hex, Nat.find_spec hex, ?_, fun k hk => Nat.find_min hex hk⟩
  obtain ⟨d, hd⟩ := Nat.exists_eq_add_of_le' (Nat.find_le hm : Nat.find hex ≤ m)
  rw [hd, Function.iterate_add_apply, onceStep_after (Nat.find_spec hex)] at hmq
  exact hmq

end Guard

/-- A system whose steps are those of a part of it, until something holds of the part. -/
theorem iterate_until {σ τ : Type*} {g : σ → σ} {f : τ → τ} {p q : τ → σ} {P : τ → Prop} {x : τ} {m : Nat}
    (hgo : ∀ y, ¬P (f y) → g (p y) = p (f y)) (hstop : ∀ y, P (f y) → g (p y) = q (f y)) (hx : ¬P x)
    (hP : P (f^[m] x)) (hfirst : ∀ k < m, ¬P (f^[k] x)) : g^[m] (p x) = q (f^[m] x) := by
  induction m generalizing x with
  | zero => exact absurd hP hx
  | succ m ih =>
      rw [Function.iterate_succ_apply] at hP
      rw [Function.iterate_succ_apply, Function.iterate_succ_apply]
      by_cases hnext : P (f x)
      · obtain rfl : m = 0 := by
          by_contra hm
          exact hfirst 1 (by omega) hnext
        exact hstop x hnext
      · rw [hgo x hnext]
        exact ih hnext hP fun k hk => hfirst (k + 1) (Nat.succ_lt_succ hk)

end Flan.Lib
