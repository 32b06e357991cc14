import Flan.Memory.Pmm
import Flan.Sys.Spinlock

/-! `pmm_malloc` and `pmm_free` as several CPUs make them at once, under `pmm_lock`. A step is one
turn of the scan, or one load or store of a byte of the bitmap: `BIT_SET` and `BIT_CLEAR` are two
steps each, and what was loaded stays with the CPU until it is stored. -/
namespace Flan.Memory
open Flan.Lib Flan.Sys

inductive PmmCall where
  | malloc (wanted : Nat)
  | free (ptr frames : Nat)
deriving DecidableEq

/-- Where a CPU is between `spinlock_acquire` and `spinlock_release`, with its variables. -/
inductive PmmAt where
  | test (wanted frame available : Nat)
  | load (wanted frame i : Nat)
  | store (wanted frame i : Nat) (byte : Byte)
  | loadFree (i stop : Nat)
  | storeFree (i stop : Nat) (byte : Byte)

def pmmEnter : PmmCall → PmmAt
  | .malloc wanted => .test wanted 1 0
  | .free ptr frames => .loadFree (ptr / frameSize) ((frames + ptr / frameSize) % 2 ^ 64)

def Pmm.storeByte (p : Pmm) (k : Nat) (byte : Byte) : Pmm := { p with bitmap := Function.update p.bitmap k byte }

def pmmStep (p : Pmm) : PmmAt → Pmm × (PmmAt ⊕ Nat)
  | .test wanted frame available =>
      if frame < p.limit then
        if p.used frame = false then
          if available + 1 = wanted then (p, .inl (.load wanted frame 0))
          else (p, .inl (.test wanted (frame + 1) (available + 1)))
        else if available ≠ wanted then (p, .inl (.test wanted (frame + 1) 0))
        else (p, .inl (.load wanted frame 0))
      else (p, .inr 0)
  | .load wanted frame i =>
      if i < wanted then (p, .inl (.store wanted frame i (p.bitmap ((frame - i) / 8))))
      else (p, .inr (frameSize * (frame + 1 - wanted) % 2 ^ 64))
  | .store wanted frame i byte =>
      (p.storeByte ((frame - i) / 8) (byte ||| (1#8 <<< ((frame - i) % 8))), .inl (.load wanted frame (i + 1)))
  | .loadFree i stop =>
      if i < stop then (p, .inl (.storeFree i stop (p.bitmap (i / 8)))) else (p, .inr 0)
  | .storeFree i stop byte =>
      (p.storeByte (i / 8) (byte &&& ~~~(1#8 <<< (i % 8))), .inl (.loadFree (i + 1) stop))

def pmmBody : Critical Pmm PmmCall PmmAt Nat := ⟨pmmEnter, pmmStep⟩

/-- A call made in one step. -/
def pmmCall (p : Pmm) : PmmCall → Pmm × Nat
  | .malloc wanted => ((pmmMalloc p wanted).2, (pmmMalloc p wanted).1)
  | .free ptr frames => (pmmFree p ptr frames, 0)

def PmmDoes (p : Pmm) (c : PmmCall) (p' : Pmm) (r : Nat) : Prop := pmmCall p c = (p', r)

/-! ### A call alone -/

section Alone
variable {p : Pmm}

/-- The inner loop from its `i`-th turn on. -/
theorem returns_load (wanted frame i : Nat) (h : i ≤ wanted) :
    pmmBody.Returns (setBack p frame i) (.load wanted frame i)
      (setBack p frame wanted, frameSize * (frame + 1 - wanted) % 2 ^ 64) := by
  induction hleft : wanted - i generalizing i with
  | zero =>
      obtain rfl : i = wanted := by omega
      exact .done (if_neg (Nat.lt_irrefl i))
  | succ left ih =>
      have hlt : i < wanted := by omega
      refine .step (if_pos hlt) (.step rfl ?_)
      exact ih (i + 1) hlt (by omega)

theorem returns_loadFree (frame i stop : Nat) :
    pmmBody.Returns (clearFrom p frame i) (.loadFree (frame + i) stop)
      (clearFrom p frame (max i (stop - frame)), 0) := by
  induction hleft : stop - (frame + i) generalizing i with
  | zero =>
      rw [Nat.max_eq_left (by omega)]
      exact .done (if_neg (by omega))
  | succ left ih =>
      have hlt : frame + i < stop := by omega
      have := ih (i + 1) (by omega)
      rw [Nat.max_eq_right (by omega)] at this ⊢
      exact .step (if_pos hlt) (.step rfl this)

/-- The scan from a frame on. -/
theorem returns_test (wanted left frame available : Nat) (h : frame + left = max frame p.limit) :
    pmmBody.Returns p (.test wanted frame available)
      (match pmmScan p wanted left frame available with
      | none => (p, 0)
      | some frame => (setBack p frame wanted, frameSize * (frame + 1 - wanted) % 2 ^ 64)) := by
  induction left generalizing frame available with
  | zero => exact .done (if_neg (by omega))
  | succ left ih =>
      have hlt : frame < p.limit := by omega
      have hnext : frame + 1 + left = max (frame + 1) p.limit := by omega
      rw [pmmScan]
      by_cases hused : p.used frame = false
      · by_cases hfull : available + 1 = wanted
        · rw [if_pos hused, if_pos hfull]
          refine .step ?_ (returns_load wanted frame 0 (Nat.zero_le _))
          exact (if_pos hlt).trans ((if_pos hused).trans (if_pos hfull))
        · rw [if_pos hused, if_neg hfull]
          refine .step ?_ (ih (frame + 1) (available + 1) hnext)
          exact (if_pos hlt).trans ((if_pos hused).trans (if_neg hfull))
      · by_cases hcount : available ≠ wanted
        · rw [if_neg hused, if_pos hcount]
          refine .step ?_ (ih (frame + 1) 0 hnext)
          exact (if_pos hlt).trans ((if_neg hused).trans (if_pos hcount))
        · rw [if_neg hused, if_neg hcount]
          refine .step ?_ (returns_load wanted frame 0 (Nat.zero_le _))
          exact (if_pos hlt).trans ((if_neg hused).trans (if_neg hcount))

/-- Alone, the steps come to what the call does. -/
theorem pmmBody_computes : pmmBody.Computes (fun _ => True) PmmDoes := by
  intro p c _
  refine ⟨_, _, ?_, trivial, rfl⟩
  cases c with
  | malloc wanted =>
      have := returns_test (p := p) wanted (p.limit - 1) 1 0 (by omega)
      cases hscan : pmmScan p wanted (p.limit - 1) 1 0 with
      | none =>
          rw [hscan] at this
          simp only [pmmMalloc, hscan]
          exact this
      | some frame =>
          rw [hscan] at this
          simp only [pmmMalloc, hscan]
          exact this
  | free ptr frames =>
      have := returns_loadFree (p := p) (ptr / frameSize) 0 ((frames + ptr / frameSize) % 2 ^ 64)
      rw [Nat.max_eq_right (Nat.zero_le _)] at this
      exact this

end Alone

/-! ### Calls of several CPUs -/

section Smp
variable {n : Nat}

/-- The CPUs have made the turns, in this order, from a bitmap that nobody was using. -/
def pmmRun (p : Pmm) (turns : List (Turn (Fin n) PmmCall)) : Locked (Fin n) Pmm Nat PmmCall PmmAt Nat Nat :=
  turns.foldl (spinlocked pmmBody).next ((spinlocked pmmBody).start p)

/-- However the steps of the CPUs are mixed, `pmm_malloc` and `pmm_free` act as if each call were
made in one step, one CPU at a time, and a CPU that has `pmm_lock` returns. -/
theorem pmm_calls_serial (p : Pmm) (turns : List (Turn (Fin n) PmmCall)) :
    Serial pmmBody PmmDoes p (pmmRun p turns) :=
  spinlocked_serial pmmBody_computes trivial turns

/-- The allocations that a history leaves, if each one that was freed was live then. A request of no frames
gives nothing to anybody, whatever its result. -/
def liveAfter : List (Fin n × PmmCall × Nat) → List (Nat × Nat) → Option (List (Nat × Nat))
  | [], live => some live
  | (_, .malloc wanted, ptr) :: log, live =>
      liveAfter log (if wanted = 0 ∨ ptr = 0 then live else (ptr, wanted) :: live)
  | (_, .free ptr frames, _) :: log, live =>
      if frames = 0 then liveAfter log live
      else if (ptr, frames) ∈ live then liveAfter log (live.erase (ptr, frames)) else none

theorem pmmFree_nothing (p : Pmm) (ptr : Nat) : pmmFree p ptr 0 = p := by
  have hzero : (0 + ptr / frameSize) % 2 ^ 64 - ptr / frameSize = 0 := by
    rw [Nat.zero_add]
    exact Nat.sub_eq_zero_of_le (Nat.mod_le _ _)
  rw [pmmFree, hzero]
  rfl

/-- A history with an owner for each pointer that is freed is a run of the allocator. -/
theorem run_of_liveAfter {p p' : Pmm} {log : List (Fin n × PmmCall × Nat)} {live live' : List (Nat × Nat)}
    (hlog : Replays PmmDoes p log p') (hlive : liveAfter log live = some live') :
    Relation.ReflTransGen PmmStep ⟨p, live⟩ ⟨p', live'⟩ := by
  induction log generalizing p live with
  | nil =>
      obtain rfl : p = p' := hlog
      obtain rfl := Option.some.inj hlive
      exact .refl
  | cons e log ih =>
      obtain ⟨i, c, r⟩ := e
      obtain ⟨u, hdoes, hrest⟩ := hlog
      cases c with
      | malloc wanted =>
          obtain ⟨rfl, hr⟩ := Prod.mk.inj hdoes
          rw [liveAfter] at hlive
          by_cases hzero : wanted = 0
          · subst hzero
            rw [if_pos (.inl rfl)] at hlive
            rw [pmmMalloc_nothing] at hrest
            exact ih hrest hlive
          · have hpos := Nat.pos_of_ne_zero hzero
            by_cases hnull : r = 0
            · rw [if_pos (.inr hnull)] at hlive
              exact .head (.failed hpos (hr.trans hnull)) (ih hrest hlive)
            · rw [if_neg (not_or.mpr ⟨hzero, hnull⟩)] at hlive
              have hstep := PmmStep.malloc (w := ⟨p, live⟩) hpos (fun h => hnull (hr.symm.trans h))
              rw [show (pmmMalloc p wanted).1 = r from hr] at hstep
              exact .head hstep (ih hrest hlive)
      | free ptr frames =>
          obtain ⟨rfl, -⟩ := Prod.mk.inj hdoes
          rw [liveAfter] at hlive
          by_cases hzero : frames = 0
          · subst hzero
            rw [if_pos rfl] at hlive
            rw [pmmFree_nothing] at hrest
            exact ih hrest hlive
          · rw [if_neg hzero] at hlive
            split at hlive
            · rename_i hmem
              exact .head (.free hmem) (ih hrest hlive)
            · cases hlive

/-- No frame is given to two callers: when every pointer freed was live, the allocations that the
calls of all CPUs have left are disjoint ranges of frames that were free at the start, and once
nobody has the lock the bitmap marks just these and what was marked at the start. -/
theorem pmm_allocations_apart (p : Pmm) (turns : List (Turn (Fin n) PmmCall)) {live : List (Nat × Nat)}
    (hlive : liveAfter (pmmRun p turns).log [] = some live) :
    (live.Pairwise fun a c => (allocSpan a).Apart (allocSpan c)) ∧
    (∀ a ∈ live, 1 ≤ (allocSpan a).lo ∧ (allocSpan a).hi ≤ p.limit ∧
      ∀ x, (allocSpan a).Has x → p.used x = false) ∧
    ((pmmRun p turns).lock = 0 → ∀ x, (pmmRun p turns).shared.used x = true ↔
      p.used x = true ∨ ∃ a ∈ live, (allocSpan a).Has x) := by
  obtain ⟨p', hlog, hshared⟩ := (spinlocked_serial pmmBody_computes trivial turns).replays
  have hw := reflTransGen_invariant PmmInv.step (PmmInv.init p) (run_of_liveAfter hlog hlive)
  refine ⟨hw.apart, fun a ha => ⟨(hw.within a ha).1, (hw.within a ha).2, hw.fresh a ha⟩, fun hfree => ?_⟩
  rw [pmmRun, hshared hfree]
  exact hw.used

/-- Two CPUs ask at once and take their steps in turn; the second waits for the first. -/
def twoCpuTurns : List (Turn (Fin 2) PmmCall) :=
  [.call 0 (.malloc 2), .call 1 (.malloc 3)] ++ (List.replicate 24 [.run 0, .run 1]).flatten

theorem two_cpus_apart : liveAfter (pmmRun smallPmm twoCpuTurns).log [] = some [(0x4000, 3), (0x1000, 2)] ∧
    (pmmRun smallPmm twoCpuTurns).lock = 0 ∧ (pmmRun smallPmm twoCpuTurns).shared.used 5 = true := by
  have hlive : liveAfter (pmmRun smallPmm twoCpuTurns).log [] = some [(0x4000, 3), (0x1000, 2)] := by decide +kernel
  have hlock : (pmmRun smallPmm twoCpuTurns).lock = 0 := by decide +kernel
  refine ⟨hlive, hlock, ?_⟩
  rw [(pmm_allocations_apart smallPmm twoCpuTurns hlive).2.2 hlock 5]
  exact .inr ⟨(0x4000, 3), by decide, by decide⟩

end Smp

end Flan.Memory
