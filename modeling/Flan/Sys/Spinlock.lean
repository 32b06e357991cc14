import Flan.Lib.Guarded
import Flan.Proc.Queue

/-! The lock of `lib/lock.c` between CPUs: `spinlock_acquire` tries again until it has failed too
often and the assertion behind it stops the CPU, and what runs between it and
`spinlock_release` is taken a step at a time, in any order with the steps of the others. -/
namespace Flan.Sys
open Flan.Lib Flan.Proc

/-- `spinlock_test_and_acq` and `spinlock_release`, on the word `lock`. -/
def spinlock : TestAndSet Nat where
  acquire := spinlockTestAndAcq
  release := spinlockRelease
  free := 0
  held := 1
  acquire_free := rfl
  acquire_held := rfl
  release_held := rfl

/-- `spinlock_count` after one more failure; the assertion fails above ten million. -/
def spinlockCount (count : Nat) : Option Nat :=
  if count + 1 > 10000000 then none else some (count + 1)

/-- What runs between `spinlock_acquire` and `spinlock_release`. -/
def spinlocked {σ C κ ρ : Type*} (body : Critical σ C κ ρ) : Guard σ Nat C κ ρ Nat where
  lock := spinlock
  first := 0
  again call count := (spinlockCount count).map (call, ·)
  stops _ := false
  body := body

/-- A failed attempt is made again for the same call. -/
theorem spinlocked_again {σ C κ ρ : Type*} (body : Critical σ C κ ρ) (c : C) (w : Nat) (c' : C) (w' : Nat)
    (h : (spinlocked body).again c w = some (c', w')) : c' = c := by
  obtain ⟨count, -, heq⟩ := Option.map_eq_some_iff.mp h
  exact (Prod.mk.inj heq).1.symm

section Serial
variable {ι σ C κ ρ : Type*} {body : Critical σ C κ ρ} {I : σ → Prop} {R : σ → C → σ → ρ → Prop} {s₀ : σ}

theorem inv_word {s : Locked ι σ Nat C κ ρ Nat} (h : (spinlocked body).Inv I R s₀ s) :
    s.lock = 0 ∧ (∀ i, ¬ (s.phase i).Holds) ∨ s.lock = 1 ∧ ∃ i, (s.phase i).Holds := by
  cases h with
  | free _ _ hlock hout => exact .inl ⟨hlock, hout⟩
  | @inside i _ _ _ _ _ _ _ _ _ hlock hphase _ _ _ => exact .inr ⟨hlock, i, by rw [hphase]; trivial⟩
  | @leaving i _ _ _ _ _ _ hlock hphase _ => exact .inr ⟨hlock, i, by rw [hphase]; trivial⟩

variable [DecidableEq ι]

/-- What the lock gives in a state: one CPU has it or it is free, the calls that have returned were
made one after the other from `s₀`, and a CPU that has it returns, whatever the others do. -/
structure Serial (body : Critical σ C κ ρ) (R : σ → C → σ → ρ → Prop) (s₀ : σ) (s : Locked ι σ Nat C κ ρ Nat) : Prop where
  word : s.lock = 0 ∧ (∀ i, ¬ (s.phase i).Holds) ∨ s.lock = 1 ∧ ∃ i, (s.phase i).Holds
  exclusive : ∀ i j, (s.phase i).Holds → (s.phase j).Holds → i = j
  replays : ∃ t, Replays R s₀ s.log t ∧ (s.lock = 0 → s.shared = t)
  returns : ∀ i, (s.phase i).Holds → ∃ c r n, (s.phase i).Calls (· = c) ∧ ∀ turns : List (Turn ι C),
    n < turns.countP (·.isRun i) →
    ∃ before, before <+: turns ∧ (before.foldl (spinlocked body).next s).log = s.log ++ [(i, c, r)]

theorem inv_returns {s : Locked ι σ Nat C κ ρ Nat} (h : (spinlocked body).Inv I R s₀ s) {i : ι}
    (hholds : (s.phase i).Holds) : ∃ c r n, (s.phase i).Calls (· = c) ∧ ∀ turns : List (Turn ι C),
      n < turns.countP (·.isRun i) →
      ∃ before, before <+: turns ∧ (before.foldl (spinlocked body).next s).log = s.log ++ [(i, c, r)] := by
  have hexcl := fun j => h.exclusive hholds (j := j)
  cases h with
  | free _ _ _ hout => exact absurd hholds (hout i)
  | @inside j c' k' t u r n _ _ _ hlock hphase _ hrun hout =>
      obtain rfl : i = j := hexcl j (by rw [hphase]; trivial)
      refine ⟨c', r, n, hphase ▸ rfl, fun turns hturns => ?_⟩
      obtain ⟨before, hbefore, hlog, _⟩ := Guard.leaves hlock hphase hrun hout hturns
      exact ⟨before, hbefore, hlog⟩
  | @leaving j c' t r _ _ _ hlock hphase hout =>
      obtain rfl : i = j := hexcl j (by rw [hphase]; trivial)
      refine ⟨c', r, 0, hphase ▸ rfl, fun turns hturns => ?_⟩
      obtain ⟨before, hbefore, hlog, _⟩ := Guard.gives_back hlock hphase hout hturns
      exact ⟨before, hbefore, hlog⟩

/-- Calls that end when they run alone are serial under the lock, in every order of steps. -/
theorem spinlocked_serial (hb : body.Computes I R) (h : I s₀) (turns : List (Turn ι C)) :
    Serial body R s₀ (turns.foldl (spinlocked body).next ((spinlocked body).start s₀)) := by
  have hinv := (Guard.inv_start (ι := ι) (g := spinlocked body) R h).run hb turns
  have hword := inv_word hinv
  obtain ⟨t, ht, hshared⟩ := hinv.replays
  refine ⟨hword, fun i j => hinv.exclusive, ⟨t, ht, fun hfree => hshared ?_⟩, fun i => inv_returns hinv⟩
  rcases hword with ⟨_, hout⟩ | ⟨hheld, _⟩
  · exact hout
  · rw [hfree] at hheld
    cases hheld

end Serial

end Flan.Sys
